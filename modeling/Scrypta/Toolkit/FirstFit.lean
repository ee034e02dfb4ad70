import Mathlib.Data.List.Forall2
import Scrypta.Toolkit.Dict

/-! Things go to keys: each in turn to the first key without one that it fits. Where nothing fits
two keys, every key ends up with the first thing that fits it. -/

namespace FirstFit

variable {α κ : Type*} (fits : α → κ → Bool) (keys : List κ)

/-- Nothing fits two of the keys. -/
def OneKeyEach : Prop := ∀ a, ∀ k ∈ keys, ∀ k' ∈ keys, fits a k = true → fits a k' = true → k = k'

/-- What the keys get of a list. -/
def chosen (l : List α) : List α := keys.filterMap fun k => l.find? fun a => fits a k

/-- The keys that get anything. -/
def served (l : List α) : List κ := keys.filter fun k => l.any fun a => fits a k

theorem chosen_served (l : List α) :
    List.Forall₂ (fun a k => a ∈ l ∧ fits a k = true) (chosen fits keys l)
      (served fits keys l) := by
  unfold chosen served
  induction keys with
  | nil => exact List.Forall₂.nil
  | cons k keys ih =>
    rw [List.filterMap_cons, List.filter_cons]
    cases hfind : l.find? fun a => fits a k with
    | none =>
      rw [if_neg]
      · exact ih
      · intro hany
        obtain ⟨a, hmem, hfits⟩ := List.any_eq_true.1 hany
        exact List.find?_eq_none.1 hfind a hmem hfits
    | some a =>
      have hmem : a ∈ l := List.mem_of_find?_eq_some hfind
      have hfits := List.find?_some hfind
      rw [if_pos (List.any_eq_true.2 ⟨a, hmem, hfits⟩)]
      exact List.Forall₂.cons ⟨hmem, hfits⟩ ih

variable {fits keys}

theorem mem_of_mem_chosen {l : List α} {a : α} (h : a ∈ chosen fits keys l) :
    a ∈ l ∧ ∃ k ∈ keys, fits a k = true := by
  obtain ⟨k, hk, hfind⟩ := List.mem_filterMap.1 h
  have hfits := List.find?_some hfind
  exact ⟨List.mem_of_find?_eq_some hfind, k, hk, hfits⟩

/-- Which keys get anything depends only on what there is that fits. -/
theorem served_congr {l l' : List α} (h : ∀ a, ∀ k ∈ keys, fits a k = true → (a ∈ l ↔ a ∈ l')) :
    served fits keys l = served fits keys l' := by
  refine List.filter_congr fun k hk => ?_
  rw [Bool.eq_iff_iff, List.any_eq_true, List.any_eq_true]
  constructor
  · rintro ⟨a, hmem, hfits⟩
    exact ⟨a, (h a k hk hfits).1 hmem, hfits⟩
  · rintro ⟨a, hmem, hfits⟩
    exact ⟨a, (h a k hk hfits).2 hmem, hfits⟩

variable [DecidableEq κ]

variable (fits keys) in
def assign (m : Dict κ α) (a : α) : Dict κ α :=
  match keys.find? fun k => !m.count k && fits a k with
  | none => m
  | some k => m.set k a

theorem find_assign (hone : OneKeyEach fits keys) (m : Dict κ α) (a : α) {k : κ} (hk : k ∈ keys) :
    (assign fits keys m a).find k = (m.find k).or (if fits a k then some a else none) := by
  unfold assign
  cases hfound : keys.find? fun k => !m.count k && fits a k with
  | none =>
    have hnot := List.find?_eq_none.1 hfound k hk
    dsimp only
    cases hfind : m.find k with
    | some b => rfl
    | none =>
      rw [Option.none_or, if_neg]
      intro hfits
      refine hnot ?_
      rw [hfits, Dict.count, hfind]
      rfl
  | some k' =>
    have hpick := List.find?_some hfound
    rw [Bool.and_eq_true, Bool.not_eq_true', Dict.count, Option.isSome_eq_false_iff,
      Option.isNone_iff_eq_none] at hpick
    dsimp only
    rw [Dict.find_set]
    by_cases heq : k = k'
    · rw [if_pos heq, heq, hpick.1, hpick.2, if_pos rfl, Option.none_or]
    · rw [if_neg heq, if_neg, Option.or_none]
      exact fun hfits => heq (hone a k hk k' (List.mem_of_find?_eq_some hfound) hfits hpick.2)

theorem find_foldl_assign (hone : OneKeyEach fits keys) (l : List α) (m : Dict κ α) {k : κ}
    (hk : k ∈ keys) :
    (l.foldl (assign fits keys) m).find k = (m.find k).or (l.find? fun a => fits a k) := by
  induction l generalizing m with
  | nil => rw [List.foldl_nil, List.find?_nil, Option.or_none]
  | cons a l ih =>
    rw [List.foldl_cons, ih, find_assign hone m a hk, Option.or_assoc, List.find?_cons]
    split
    · next hfits => rw [hfits, Option.some_or]
    · next hnot => rw [Bool.eq_false_iff.2 hnot, Option.none_or]

/-- From the empty map, each key gets the first thing of the list that fits it. -/
theorem filterMap_foldl_assign (hone : OneKeyEach fits keys) (l : List α) :
    keys.filterMap (l.foldl (assign fits keys) .empty).find = chosen fits keys l := by
  refine List.filterMap_congr fun k hk => ?_
  rw [find_foldl_assign hone l _ hk, Dict.find_empty, Option.none_or]

end FirstFit
