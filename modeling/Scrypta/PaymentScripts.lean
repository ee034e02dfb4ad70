import Scrypta.Compressor
import Scrypta.StandardScripts

/-! Which scripts pass for a payment to a key hash: `IsNormalPaymentScript` beside the test that
the compressor makes. -/

namespace Scrypta.Script

open Interpreter

/-- The 25 bytes of a payment to the hash of a key. -/
def PaysToKeyHash (s : CScript) : Prop :=
  ∃ hash : Bytes, hash.length = 20 ∧
    s = [opDup, opHash160, 20] ++ hash ++ [opEqualVerify, opCheckSig]

/-- Other 25 bytes: the push has another size or form, and the end of the script comes too soon. -/
def SlipsThrough (s : CScript) : Prop :=
  s.length = 25 ∧ ∃ header data tail, PushHeader data.length header ∧
    tail <+: [opEqualVerify, opCheckSig] ∧ s = [opDup, opHash160] ++ (header ++ (data ++ tail)) ∧
    ¬(data.length = 20 ∧ tail = [opEqualVerify, opCheckSig])

section Payments

variable {s pc : CScript} {opcode : UInt8} {wants : List (Option UInt8)}

theorem opcodesAre_cons (want : Option UInt8) (first : UInt8) (pc : CScript) :
    opcodesAre (want :: wants) (first :: pc) =
      ((want.isNone || want == some (getOp2 (first :: pc)).opcode) &&
        opcodesAre wants (getOp2 (first :: pc)).pc) := rfl

theorem opcodesAre_opcode (hlt : opPushData4 < opcode) (hvalid : opcode ≠ opInvalidOpcode) :
    opcodesAre (some opcode :: wants) pc = true ↔
      pc = [] ∨ ∃ rest, pc = opcode :: rest ∧ opcodesAre wants rest = true := by
  constructor
  · intro h
    cases pc with
    | nil => exact Or.inl rfl
    | cons first rest =>
      right
      rw [opcodesAre_cons] at h
      simp only [Option.isNone_some, Bool.false_or, Bool.and_eq_true, beq_iff_eq,
        Option.some.injEq] at h
      obtain ⟨hop, hrest⟩ := h
      have hok : (getOp2 (first :: rest)).ok = true := by
        by_contra hok
        rw [Bool.not_eq_true] at hok
        exact hvalid (hop.trans (cut_of_not_ok hok).1)
      have hcons := eq_cons_of_lt hok (hop ▸ hlt)
      rw [← hop] at hcons
      exact ⟨_, hcons, hrest⟩
  · rintro (rfl | ⟨rest, rfl, hrest⟩)
    · rfl
    · rw [opcodesAre_cons, getOp2_of_lt hlt]
      simpa using hrest

theorem opcodesAre_tail :
    opcodesAre [some opEqualVerify, some opCheckSig] pc = true ↔
      pc <+: [opEqualVerify, opCheckSig] := by
  have hnone : ∀ rest : CScript, opcodesAre [] rest = true ↔ rest = [] := by
    intro rest
    cases rest <;> simp [opcodesAre]
  simp only [opcodesAre_opcode (show opPushData4 < opEqualVerify by decide) (by decide),
    opcodesAre_opcode (show opPushData4 < opCheckSig by decide) (by decide), hnone]
  constructor
  · rintro (rfl | ⟨rest, rfl, rfl | ⟨rest, rfl, rfl⟩⟩)
    · exact List.nil_prefix
    · exact ⟨[opCheckSig], rfl⟩
    · exact List.prefix_refl _
  · intro h
    rcases List.prefix_cons_iff.1 h with hnil | ⟨rest, hcons, htail⟩
    · exact Or.inl hnil
    · refine Or.inr ⟨rest, hcons, ?_⟩
      rcases List.prefix_cons_iff.1 htail with hnil | ⟨rest, hcons, hend⟩
      · exact Or.inl hnil
      · exact Or.inr ⟨rest, hcons, List.prefix_nil.1 hend⟩

/-- The check accepts any push that leaves no more than the last two opcodes. -/
theorem isNormalPaymentScript_iff : isNormalPaymentScript s = true ↔
    s.length = 25 ∧ ∃ header data tail, PushHeader data.length header ∧
      tail <+: [opEqualVerify, opCheckSig] ∧
      s = [opDup, opHash160] ++ (header ++ (data ++ tail)) := by
  have hlong : s.length = 25 → s ≠ [] := by
    rintro hlen rfl
    cases hlen
  rw [isNormalPaymentScript, Bool.and_eq_true, beq_iff_eq]
  refine and_congr_right fun hlen => ?_
  rw [opcodesAre_opcode (by decide) (by decide), or_iff_right (hlong hlen)]
  constructor
  · rintro ⟨s1, rfl, h⟩
    rw [List.length_cons] at hlen
    rcases (opcodesAre_opcode (by decide) (by decide)).1 h with rfl | ⟨s2, rfl, h⟩
    · cases hlen
    · rw [List.length_cons] at hlen
      have hne : s2 ≠ [] := by
        rintro rfl
        cases hlen
      obtain ⟨first, rest, rfl⟩ := List.exists_cons_of_ne_nil hne
      have htail := opcodesAre_tail.1 h
      have hshort := htail.length_le
      rcases getOp2_cases hne with
        ⟨opcode, rest', hlt, heq⟩ | ⟨-, header, hheader, -, heq⟩ | ⟨-, hcut⟩
      · rw [heq, getOp2_of_lt hlt] at hshort
        rw [heq] at hlen
        simp only [List.length_cons, List.length_nil] at hlen hshort
        omega
      · exact ⟨header, _, _, hheader, htail, congrArg (fun s => opDup :: opHash160 :: s) heq⟩
      · simp only [List.length_cons, List.length_nil] at hlen hshort hcut
        omega
  · rintro ⟨header, data, tail, hheader, htail, rfl⟩
    refine ⟨_, rfl, (opcodesAre_opcode (by decide) (by decide)).2 (Or.inr ⟨_, rfl, ?_⟩)⟩
    have hsize : (data ++ tail).length < 2 ^ 32 := by
      simp only [List.length_append, List.length_cons, List.length_nil] at hlen ⊢
      omega
    obtain ⟨opcode, -, hop⟩ := hheader.getOp2_append hsize
    have hne : header ++ (data ++ tail) ≠ [] := by
      intro hnil
      rw [hnil] at hop
      cases hop
    obtain ⟨first, rest, heq⟩ := List.exists_cons_of_ne_nil hne
    change opcodesAre [none, some opEqualVerify, some opCheckSig] (header ++ (data ++ tail)) = true
    rw [heq] at hop ⊢
    rw [opcodesAre_cons, hop]
    exact opcodesAre_tail.2 htail

theorem paysToKeyHash_iff : PaysToKeyHash s ↔ (Compressor.toKeyID s).isSome = true := by
  constructor
  · rintro ⟨hash, hlen, rfl⟩
    rw [Compressor.toKeyID, if_pos]
    · rfl
    · refine ⟨by simp [hlen], rfl, ?_⟩
      rw [List.drop_left' (by simp [hlen])]
  · intro h
    obtain ⟨keyID, hkeyID⟩ := Option.isSome_iff_exists.1 h
    unfold Compressor.toKeyID at hkeyID
    split at hkeyID
    · next hparts =>
      obtain ⟨hlen, htake, hdrop⟩ := hparts
      refine ⟨(s.drop 3).take 20, by simp [hlen], ?_⟩
      rw [← hdrop, ← htake]
      have hrest : s.drop 23 = (s.drop 3).drop 20 := by rw [List.drop_drop]
      rw [hrest, List.append_assoc, List.take_append_drop, List.take_append_drop]
    · cases hkeyID

theorem PaysToKeyHash.accepted (h : PaysToKeyHash s) : isNormalPaymentScript s = true := by
  obtain ⟨hash, hlen, rfl⟩ := h
  refine isNormalPaymentScript_iff.2 ⟨by simp [hlen], [20], hash, _, ?_, List.prefix_refl _, rfl⟩
  rw [hlen]
  exact PushHeader.direct (n := 20) (by decide)

/-- The push of a payment to a key hash can be read in one way only. -/
theorem SlipsThrough.not_pays (h : SlipsThrough s) : ¬PaysToKeyHash s := by
  obtain ⟨hlen, header, data, tail, hheader, -, heq, hother⟩ := h
  rintro ⟨hash, hhash, rfl⟩
  have hsplit : [20] ++ (hash ++ [opEqualVerify, opCheckSig]) = header ++ (data ++ tail) := by
    have hcons := congrArg (List.drop 2) heq
    exact hcons
  have hdirect : PushHeader hash.length [20] := by
    rw [hhash]
    exact PushHeader.direct (n := 20) (by decide)
  have hfits : (hash ++ [opEqualVerify, opCheckSig]).length < 2 ^ 32 := by simp [hhash]
  obtain ⟨opcode, -, hop⟩ := hdirect.getOp2_append hfits
  have hsize : (data ++ tail).length < 2 ^ 32 := by
    rw [heq] at hlen
    simp only [List.length_append, List.length_cons, List.length_nil] at hlen ⊢
    omega
  obtain ⟨opcode', -, hop'⟩ := hheader.getOp2_append hsize
  rw [hsplit, hop'] at hop
  cases hop
  exact hother ⟨hhash, rfl⟩

theorem isNormalPaymentScript_cases : isNormalPaymentScript s = true ↔
    PaysToKeyHash s ∨ SlipsThrough s := by
  constructor
  · intro h
    obtain ⟨hlen, header, data, tail, hheader, htail, heq⟩ := isNormalPaymentScript_iff.1 h
    by_cases hpays : data.length = 20 ∧ tail = [opEqualVerify, opCheckSig]
    · left
      obtain ⟨hdata, rfl⟩ := hpays
      rw [heq] at hlen
      simp only [List.length_append, List.length_cons, List.length_nil, hdata] at hlen
      have hone := hheader.eq_singleton (by omega)
      rw [hdata] at hone
      subst hone
      exact ⟨data, hdata, heq⟩
    · exact Or.inr ⟨hlen, header, data, tail, hheader, htail, heq, hpays⟩
  · rintro (h | ⟨hlen, header, data, tail, hheader, htail, heq, -⟩)
    · exact h.accepted
    · exact isNormalPaymentScript_iff.2 ⟨hlen, header, data, tail, hheader, htail, heq⟩

/-- 22 bytes are pushed and nothing is checked. -/
theorem unchecked_push_is_normal :
    isNormalPaymentScript ([opDup, opHash160, 22] ++ List.replicate 22 1) = true ∧
      Compressor.toKeyID ([opDup, opHash160, 22] ++ List.replicate 22 1) = none := by
  decide

/-- The check agrees with that of the compressor but for the scripts that slip through. -/
theorem isNormalPaymentScript_exact (s : CScript) :
    ((isNormalPaymentScript s = true ↔ PaysToKeyHash s) ∧
      isNormalPaymentScript s = (Compressor.toKeyID s).isSome) ↔ ¬SlipsThrough s := by
  constructor
  · rintro ⟨hpays, -⟩ hslips
    exact hslips.not_pays (hpays.1 (isNormalPaymentScript_cases.2 (Or.inr hslips)))
  · intro hnot
    have hpays : isNormalPaymentScript s = true ↔ PaysToKeyHash s := by
      rw [isNormalPaymentScript_cases, or_iff_left hnot]
    exact ⟨hpays, Bool.eq_iff_iff.2 (hpays.trans paysToKeyHash_iff)⟩

end Payments

end Scrypta.Script
