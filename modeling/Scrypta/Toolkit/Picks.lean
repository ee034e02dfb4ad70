import Mathlib.Algebra.Order.BigOperators.Group.List
import Mathlib.Data.List.Nodup
import Mathlib.Data.List.Perm.Subperm

/-! The elements of a list that are marked by a list of flags, and what a mark adds to their sum. -/

namespace Picks

variable {α β : Type*}

def pick : List α → List Bool → List α
  | x :: xs, b :: flags => if b then x :: pick xs flags else pick xs flags
  | _, _ => []

theorem pick_sublist (xs : List α) (flags : List Bool) : (pick xs flags).Sublist xs := by
  induction xs generalizing flags with
  | nil => exact List.Sublist.refl _
  | cons x xs ih =>
    cases flags with
    | nil => exact List.nil_sublist _
    | cons b flags =>
      rw [pick]
      split
      · exact (ih flags).cons_cons x
      · exact (ih flags).cons x

theorem map_pick (f : α → β) (xs : List α) (flags : List Bool) :
    (pick xs flags).map f = pick (xs.map f) flags := by
  induction xs generalizing flags with
  | nil => rfl
  | cons x xs ih =>
    cases flags with
    | nil => rfl
    | cons b flags =>
      rw [List.map_cons, pick, pick]
      split
      · rw [List.map_cons, ih]
      · exact ih flags

theorem pick_true (xs : List α) : pick xs (List.replicate xs.length true) = xs := by
  induction xs with
  | nil => rfl
  | cons x xs ih => rw [List.length_cons, List.replicate_succ, pick, if_pos rfl, ih]

theorem pick_false (xs : List α) (n : ℕ) : pick xs (List.replicate n false) = [] := by
  induction xs generalizing n with
  | nil => rfl
  | cons x xs ih =>
    cases n with
    | zero => rfl
    | succ n => exact ih n

theorem sum_pick_set [AddCommMonoid α] {xs : List α} {flags : List Bool} {i : ℕ} {x : α}
    (hx : xs[i]? = some x) (hflag : flags[i]? = some false) :
    (pick xs (flags.set i true)).sum = (pick xs flags).sum + x := by
  induction xs generalizing flags i with
  | nil => cases hx
  | cons y xs ih =>
    cases flags with
    | nil => cases hflag
    | cons b flags =>
      cases i with
      | zero =>
        obtain rfl := Option.some.inj hx
        obtain rfl := Option.some.inj hflag
        rw [List.set_cons_zero, pick, pick, if_pos rfl, if_neg Bool.false_ne_true, List.sum_cons,
          add_comm]
      | succ i =>
        have hrest : (pick xs (flags.set i true)).sum = (pick xs flags).sum + x := ih hx hflag
        rw [List.set_cons_succ, pick, pick]
        split
        · rw [List.sum_cons, List.sum_cons, hrest, add_assoc]
        · exact hrest

theorem set_set_back {flags : List Bool} {i : ℕ} (hflag : flags[i]? = some false) :
    (flags.set i true).set i false = flags := by
  obtain ⟨hi, hflag⟩ := List.getElem?_eq_some_iff.1 hflag
  rw [List.set_set, ← hflag, List.set_getElem_self]

theorem sum_pick_le [AddCommMonoid α] [PartialOrder α] [IsOrderedAddMonoid α] {xs : List α}
    (hxs : ∀ x ∈ xs, 0 ≤ x) (flags : List Bool) : (pick xs flags).sum ≤ xs.sum :=
  (pick_sublist xs flags).sum_le_sum hxs

theorem sum_pick_nonneg [AddCommMonoid α] [PartialOrder α] [IsOrderedAddMonoid α] {xs : List α}
    (hxs : ∀ x ∈ xs, 0 ≤ x) (flags : List Bool) : 0 ≤ (pick xs flags).sum :=
  List.sum_nonneg fun x hx => hxs x ((pick_sublist xs flags).subset hx)

/-- Elements with different keys that are taken out of a list are the ones with these keys. -/
theorem filter_mem_perm [DecidableEq β] {f : α → β} {xs ys : List α} (hsub : ys.Subperm xs)
    (hkeys : (xs.map f).Nodup) : (xs.filter fun x => decide (f x ∈ ys.map f)).Perm ys := by
  have hxs : xs.Nodup := List.Nodup.of_map f hkeys
  have hys : ys.Nodup := by
    obtain ⟨zs, hperm, hzs⟩ := hsub
    exact hperm.nodup_iff.1 (hxs.sublist hzs)
  refine (List.perm_ext_iff_of_nodup (hxs.filter _) hys).2 fun x => ?_
  rw [List.mem_filter, decide_eq_true_iff]
  constructor
  · rintro ⟨hx, hkey⟩
    obtain ⟨y, hy, heq⟩ := List.mem_map.1 hkey
    rwa [← List.inj_on_of_nodup_map hkeys (hsub.subset hy) hx heq]
  · exact fun hx => ⟨hsub.subset hx, List.mem_map_of_mem hx⟩

end Picks
