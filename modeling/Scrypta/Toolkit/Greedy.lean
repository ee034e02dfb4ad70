import Mathlib.Algebra.BigOperators.Group.List.Basic
import Mathlib.Algebra.Order.Ring.Int
import Mathlib.Data.List.Nodup

/-! A greedy choice within a bound: each item in turn is taken if its weight still fits, and passed
over otherwise. -/

namespace Greedy

variable {α : Type*} (weight : α → ℤ) (bound : ℤ)

/-- What is taken where so much of the bound is used up. -/
def pick : ℤ → List α → List α
  | _, [] => []
  | used, a :: rest =>
    if weight a + used ≤ bound then a :: pick (used + weight a) rest else pick used rest

variable {weight bound} {used : ℤ} {l before after : List α} {a : α}

def total (weight : α → ℤ) (l : List α) : ℤ := (l.map weight).sum

@[simp] theorem total_nil : total weight [] = 0 := rfl

@[simp] theorem total_cons (a : α) (l : List α) :
    total weight (a :: l) = weight a + total weight l := List.sum_cons

theorem pick_sublist (weight : α → ℤ) (bound used : ℤ) (l : List α) :
    (pick weight bound used l).Sublist l := by
  induction l generalizing used with
  | nil => exact List.Sublist.slnil
  | cons a rest ih =>
    rw [pick]
    split
    · exact (ih _).cons_cons a
    · exact (ih _).cons a

/-- What is taken fits. -/
theorem used_add_total_pick_le (hused : used ≤ bound) :
    used + total weight (pick weight bound used l) ≤ bound := by
  induction l generalizing used with
  | nil => rwa [pick, total_nil, add_zero]
  | cons a rest ih =>
    rw [pick]
    split
    · next hfits =>
      have hrest : used + weight a + total weight _ ≤ bound := ih (by omega)
      rw [total_cons]
      omega
    · exact ih hused

theorem pick_append (l l' : List α) : pick weight bound used (l ++ l') =
    pick weight bound used l ++
      pick weight bound (used + total weight (pick weight bound used l)) l' := by
  induction l generalizing used with
  | nil => rw [List.nil_append, pick, List.nil_append, total_nil, add_zero]
  | cons a rest ih =>
    rw [List.cons_append, pick, pick]
    split
    · rw [ih, List.cons_append, total_cons, add_assoc]
    · exact ih

/-- An item is passed over only if it does not fit beside what is taken before it. -/
theorem lt_of_not_mem_pick (hout : a ∉ pick weight bound used (before ++ a :: after)) :
    bound < weight a + (used + total weight (pick weight bound used before)) := by
  by_contra hfits
  rw [pick_append, pick, if_pos (not_lt.1 hfits)] at hout
  exact hout (List.mem_append_right _ List.mem_cons_self)

/-- Of a part of a list, the items whose keys are among those of a choice from the whole list are
what was chosen from the part. -/
theorem filter_key_mem {κ : Type*} [DecidableEq κ] {key : α → κ} {chosen chosen' : List α}
    (hnodup : ((before ++ after).map key).Nodup) (hchosen : chosen.Sublist before)
    (hchosen' : chosen'.Sublist after) :
    before.filter (fun x => key x ∈ (chosen ++ chosen').map key) = chosen := by
  induction hchosen generalizing after with
  | slnil => rfl
  | @cons chosen before x hsub ih =>
    obtain ⟨hnew, hrest⟩ := List.nodup_cons.1 hnodup
    rw [List.filter_cons, if_neg, ih hrest hchosen']
    rw [decide_eq_true_iff]
    exact fun hmem => hnew (((hsub.append hchosen').map key).subset hmem)
  | @cons_cons chosen before x hsub ih =>
    obtain ⟨hnew, hrest⟩ := List.nodup_cons.1 hnodup
    have hkeys : (x :: chosen ++ chosen').map key = key x :: (chosen ++ chosen').map key := rfl
    rw [hkeys, List.filter_cons, if_pos (decide_eq_true List.mem_cons_self)]
    congr 1
    refine Eq.trans (List.filter_congr fun y hy => ?_) (ih hrest hchosen')
    rw [decide_eq_decide]
    refine ⟨fun hmem => ?_, List.mem_cons_of_mem _⟩
    rcases List.mem_cons.1 hmem with heq | hmem
    · refine absurd ?_ hnew
      rw [← heq]
      exact List.mem_map.2 ⟨y, List.mem_append_left _ hy, rfl⟩
    · exact hmem

end Greedy
