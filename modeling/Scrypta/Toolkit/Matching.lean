import Mathlib.Data.List.Forall2
import Mathlib.Data.List.NodupEquivFin

/-! Matching two lists in order: every element of the first gets one of the second that fits, and
those it gets are in the order of the second. Taking the first that fits finds such a matching
whenever there is one. -/

namespace Matching

variable {α β : Type*}

/-- Each element takes the first of those left that fits it. -/
def greedy (fits : α → β → Bool) : List α → List β → Bool
  | [], _ => true
  | _ :: _, [] => false
  | a :: l, b :: m => if fits a b then greedy fits l m else greedy fits (a :: l) m

section Relation

variable {R : α → β → Prop} {l : List α} {m : List β}

theorem length_le (h : List.SublistForall₂ R l m) : l.length ≤ m.length := by
  obtain ⟨k, hforall, hsub⟩ := List.sublistForall₂_iff.1 h
  exact hforall.length_eq.trans_le hsub.length_le

theorem tail {a : α} (h : List.SublistForall₂ R (a :: l) m) : List.SublistForall₂ R l m := by
  obtain ⟨k, hforall, hsub⟩ := List.sublistForall₂_iff.1 h
  cases hforall with
  | cons _ hrest =>
    exact List.sublistForall₂_iff.2 ⟨_, hrest, (List.sublist_cons_self _ _).trans hsub⟩

/-- Giving up the first of the second list costs at most the first of the other. -/
theorem matched {a : α} {b : β} (h : List.SublistForall₂ R (a :: l) (b :: m)) :
    List.SublistForall₂ R l m := by
  cases h with
  | cons _ hrest => exact hrest
  | cons_right hrest => exact tail hrest

theorem unmatched {a : α} {b : β} (h : List.SublistForall₂ R (a :: l) (b :: m)) (hbad : ¬R a b) :
    List.SublistForall₂ R (a :: l) m := by
  cases h with
  | cons hgood _ => exact absurd hgood hbad
  | cons_right hrest => exact hrest

theorem reverse (h : List.SublistForall₂ R l m) : List.SublistForall₂ R l.reverse m.reverse := by
  obtain ⟨k, hforall, hsub⟩ := List.sublistForall₂_iff.1 h
  exact List.sublistForall₂_iff.2 ⟨k.reverse, List.forall₂_reverse_iff.2 hforall, hsub.reverse⟩

theorem reverse_iff :
    List.SublistForall₂ R l.reverse m.reverse ↔ List.SublistForall₂ R l m := by
  constructor
  · intro h
    have hback := reverse h
    rwa [List.reverse_reverse, List.reverse_reverse] at hback
  · exact reverse

/-- A matching is a strictly increasing choice of places. -/
theorem iff_exists_strictMono : List.SublistForall₂ R l m ↔
    ∃ f : Fin l.length → Fin m.length, StrictMono f ∧ ∀ i, R (l.get i) (m.get (f i)) := by
  rw [List.sublistForall₂_iff]
  constructor
  · rintro ⟨k, hforall, hsub⟩
    obtain ⟨f, hf⟩ := List.sublist_iff_exists_fin_orderEmbedding_get_eq.1 hsub
    have hlen := hforall.length_eq
    refine ⟨fun i => f (i.cast hlen), fun i j hij => f.strictMono (by simpa using hij), fun i => ?_⟩
    rw [← hf]
    exact hforall.get i.isLt (hlen ▸ i.isLt)
  · rintro ⟨f, hmono, hf⟩
    refine ⟨List.ofFn fun i => m.get (f i), ?_, ?_⟩
    · refine List.forall₂_iff_get.2 ⟨(List.length_ofFn).symm, fun i hi hi' => ?_⟩
      rw [List.get_ofFn]
      exact hf ⟨i, hi⟩
    · refine List.sublist_iff_exists_fin_orderEmbedding_get_eq.2
        ⟨OrderEmbedding.ofStrictMono (fun i => f (i.cast List.length_ofFn)) fun i j hij => ?_,
          fun i => ?_⟩
      · exact hmono (by simpa using hij)
      · rw [List.get_ofFn]
        rfl

end Relation

section Greedy

variable {fits : α → β → Bool} {l : List α} {m : List β}

theorem greedy_iff :
    greedy fits l m = true ↔ List.SublistForall₂ (fun a b => fits a b = true) l m := by
  induction m generalizing l with
  | nil =>
    cases l with
    | nil => exact iff_of_true rfl .nil
    | cons a l => exact iff_of_false Bool.false_ne_true nofun
  | cons b m ih =>
    cases l with
    | nil => exact iff_of_true rfl .nil
    | cons a l =>
      rw [greedy]
      by_cases hfits : fits a b = true
      · rw [if_pos hfits, ih]
        exact ⟨.cons hfits, matched⟩
      · rw [if_neg hfits, ih]
        exact ⟨.cons_right, fun h => unmatched h hfits⟩

/-- Too few are left. -/
theorem greedy_of_length_lt (h : m.length < l.length) : greedy fits l m = false :=
  Bool.eq_false_iff.2 fun hgreedy => absurd (length_le (greedy_iff.1 hgreedy)) (Nat.not_le.2 h)

end Greedy

end Matching
