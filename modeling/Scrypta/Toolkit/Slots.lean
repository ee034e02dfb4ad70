import Mathlib.Algebra.GroupWithZero.Nat
import Mathlib.Algebra.Order.BigOperators.Group.List
import Mathlib.Algebra.Order.Group.Int
import Mathlib.Algebra.Ring.Int.Defs
import Mathlib.Data.List.DropRight

/-! Vectors with empty places. A place is empty when the value there counts as null, and null
values at the end of the vector are dropped. A vector is known by what it holds. -/

namespace Slots

variable {α : Type*}

section Defs

variable (isNull : α → Bool)

/-- What is held at a place. -/
def held (l : List α) (n : ℕ) : Option α := l[n]?.filter fun a => !isNull a

/-- The vector with a value put at a place, which may lie past its end. -/
def place (null : α) (l : List α) (n : ℕ) (a : α) : List α :=
  (l ++ List.replicate (n + 1 - l.length) null).set n a

/-- No null value at the end, and only one kind of null value. -/
structure Tidy (null : α) (l : List α) : Prop where
  trimmed : l.rdropWhile isNull = l
  canonical : ∀ a ∈ l, isNull a = true → a = null

end Defs

variable {isNull : α → Bool} {null : α} {l : List α} {n : ℕ} {a : α}

theorem held_eq_some : held isNull l n = some a ↔ l[n]? = some a ∧ isNull a = false := by
  simp [held, Option.filter_eq_some_iff]

theorem held_eq_none : held isNull l n = none ↔ ∀ a, l[n]? = some a → isNull a = true := by
  simp [held, Option.filter_eq_none_iff]

theorem held_of_length_le (h : l.length ≤ n) : held isNull l n = none :=
  held_eq_none.mpr fun a ha => by
    rw [List.getElem?_eq_none h] at ha
    cases ha

@[simp] theorem held_nil (n : ℕ) : held isNull [] n = none := rfl

theorem all_isNull_iff : l.all isNull = true ↔ ∀ n, held isNull l n = none := by
  rw [List.all_eq_true]
  constructor
  · intro h n
    exact held_eq_none.mpr fun a ha => h a (List.mem_of_getElem? ha)
  · intro h a ha
    obtain ⟨n, hn⟩ := List.mem_iff_getElem?.mp ha
    exact held_eq_none.mp (h n) a hn

/-- Dropping the null values at the end changes nothing that is held. -/
theorem held_rdropWhile (l : List α) (n : ℕ) :
    held isNull (l.rdropWhile isNull) n = held isNull l n := by
  have hsplit : l.rdropWhile isNull ++ l.rtakeWhile isNull = l := List.rdropWhile_append_rtakeWhile
  by_cases hn : n < (l.rdropWhile isNull).length
  · have hget : l[n]? = (l.rdropWhile isNull)[n]? := by
      rw [← List.getElem?_append_left hn, hsplit]
    rw [held, held, hget]
  · rw [held_of_length_le (Nat.le_of_not_lt hn)]
    refine (held_eq_none.mpr fun a ha => ?_).symm
    rw [← hsplit, List.getElem?_append_right (Nat.le_of_not_lt hn)] at ha
    exact List.mem_rtakeWhile_imp (List.mem_of_getElem? ha)

theorem held_set_null (h : isNull null = true) (l : List α) (n m : ℕ) :
    held isNull (l.set n null) m = if m = n then none else held isNull l m := by
  rw [held, held, List.getElem?_set]
  by_cases hm : m = n
  · subst hm
    rw [if_pos rfl, if_pos rfl]
    by_cases hlt : m < l.length
    · simp [hlt, h]
    · simp [hlt]
  · rw [if_neg (Ne.symm hm), if_neg hm]

/-- Null values at the end hold nothing. -/
theorem held_append_null (hnull : isNull null = true) (l : List α) (k m : ℕ) :
    held isNull (l ++ List.replicate k null) m = held isNull l m := by
  by_cases hm : m < l.length
  · rw [held, held, List.getElem?_append_left hm]
  · rw [held_of_length_le (Nat.le_of_not_lt hm), held_eq_none]
    intro b hb
    rw [List.getElem?_append_right (Nat.le_of_not_lt hm)] at hb
    rw [List.eq_of_mem_replicate (List.mem_of_getElem? hb), hnull]

theorem held_place (hnull : isNull null = true) (ha : isNull a = false) (l : List α) (n m : ℕ) :
    held isNull (place null l n a) m = if m = n then some a else held isNull l m := by
  have hlen : n < (l ++ List.replicate (n + 1 - l.length) null).length := by
    rw [List.length_append, List.length_replicate]
    omega
  by_cases hm : m = n
  · subst hm
    rw [if_pos rfl, held_eq_some, place, List.getElem?_set_self hlen]
    exact ⟨rfl, ha⟩
  · rw [if_neg hm, held, place, List.getElem?_set_ne (Ne.symm hm), ← held]
    exact held_append_null hnull l _ m

theorem Tidy.nil : Tidy isNull null [] := ⟨rfl, nofun⟩

theorem Tidy.rdropWhile (h : ∀ a ∈ l, isNull a = true → a = null) :
    Tidy isNull null (l.rdropWhile isNull) :=
  ⟨List.rdropWhile_idempotent _ _, fun a ha => h a ((List.rdropWhile_prefix isNull _).subset ha)⟩

theorem Tidy.held_last (h : Tidy isNull null l) (hl : 0 < l.length) :
    held isNull l (l.length - 1) ≠ none := by
  have hne : l ≠ [] := List.ne_nil_of_length_pos hl
  have hlast := List.rdropWhile_eq_self_iff.mp h.trimmed hne
  intro hnone
  refine hlast (held_eq_none.mp hnone _ ?_)
  rw [← List.getLast?_eq_getElem?, List.getLast?_eq_getLast_of_ne_nil hne]

theorem Tidy.length_le {l' : List α} (h : Tidy isNull null l)
    (heq : ∀ n, held isNull l n = held isNull l' n) : l.length ≤ l'.length := by
  by_contra hlt
  refine h.held_last (by omega) ?_
  rw [heq]
  exact held_of_length_le (by omega)

/-- Tidy vectors that hold the same are equal. -/
theorem Tidy.ext {l' : List α} (h : Tidy isNull null l) (h' : Tidy isNull null l')
    (heq : ∀ n, held isNull l n = held isNull l' n) : l = l' := by
  have hlen : l.length = l'.length :=
    Nat.le_antisymm (h.length_le heq) (h'.length_le fun n => (heq n).symm)
  refine List.ext_getElem hlen fun n hn hn' => ?_
  have hget := List.getElem?_eq_getElem hn
  have hget' := List.getElem?_eq_getElem hn'
  cases hnull : isNull l[n] with
  | false =>
    have hheld := held_eq_some.mpr ⟨hget, hnull⟩
    rw [heq] at hheld
    exact (Option.some.inj (hget'.symm.trans (held_eq_some.mp hheld).1)).symm
  | true =>
    have hnone : held isNull l n = none := held_eq_none.mpr fun a ha => by
      rw [hget] at ha
      rwa [← Option.some.inj ha]
    have hnull' := held_eq_none.mp ((heq n).symm.trans hnone) _ hget'
    rw [h.canonical _ (List.getElem_mem hn) hnull, h'.canonical _ (List.getElem_mem hn') hnull']

/-! The sum of what is held. -/

def total (isNull : α → Bool) (f : α → ℤ) (l : List α) : ℤ :=
  (l.map fun a => if isNull a then 0 else f a).sum

variable {f : α → ℤ}

theorem total_cons (a : α) (l : List α) :
    total isNull f (a :: l) = (if isNull a then 0 else f a) + total isNull f l :=
  List.sum_cons

theorem total_eq_zero (h : ∀ n, held isNull l n = none) : total isNull f l = 0 := by
  refine List.sum_eq_zero fun x hx => ?_
  obtain ⟨a, ha, rfl⟩ := List.mem_map.mp hx
  obtain ⟨n, hn⟩ := List.mem_iff_getElem?.mp ha
  exact if_pos (held_eq_none.mp (h n) a hn)

/-- Vectors that hold the same have the same sum. -/
theorem total_congr {l' : List α} (h : ∀ n, held isNull l n = held isNull l' n) :
    total isNull f l = total isNull f l' := by
  induction l generalizing l' with
  | nil => rw [total_eq_zero fun n => (h n).symm]; rfl
  | cons a l ih =>
    cases l' with
    | nil => rw [total_eq_zero h]; rfl
    | cons b l' =>
      have hfirst : (if isNull a then 0 else f a) = if isNull b then 0 else f b := by
        have h0 := h 0
        simp only [held, List.getElem?_cons_zero, Option.filter_some] at h0
        cases ha : isNull a <;> cases hb : isNull b <;> simp_all
      rw [total_cons, total_cons, hfirst, ih fun n => h (n + 1)]

theorem total_set (hn : n < l.length) (a : α) :
    total isNull f (l.set n a) = total isNull f l - ((held isNull l n).map f).getD 0 +
      if isNull a then 0 else f a := by
  induction l generalizing n with
  | nil => cases hn
  | cons b l ih =>
    cases n with
    | zero =>
      have hheld : ((held isNull (b :: l) 0).map f).getD 0 = if isNull b then 0 else f b := by
        simp only [held, List.getElem?_cons_zero, Option.filter_some]
        cases isNull b <;> rfl
      rw [List.set_cons_zero, total_cons, total_cons, hheld]
      omega
    | succ n =>
      have hheld : held isNull (b :: l) (n + 1) = held isNull l n := rfl
      rw [List.set_cons_succ, total_cons, total_cons, hheld, ih (Nat.lt_of_succ_lt_succ hn)]
      omega

/-- What is taken away is missing in the sum. -/
theorem total_set_null (hnull : isNull null = true) (h : held isNull l n = some a) :
    total isNull f (l.set n null) = total isNull f l - f a := by
  have hn : n < l.length := (List.getElem?_eq_some_iff.mp (held_eq_some.mp h).1).1
  rw [total_set hn, h, hnull]
  simp

/-- What is put at an empty place is added to the sum. -/
theorem total_place (hnull : isNull null = true) (ha : isNull a = false)
    (h : held isNull l n = none) :
    total isNull f (place null l n a) = total isNull f l + f a := by
  have hgrown := held_append_null hnull l (n + 1 - l.length)
  have hlen : n < (l ++ List.replicate (n + 1 - l.length) null).length := by
    rw [List.length_append, List.length_replicate]
    omega
  rw [place, total_set hlen, hgrown, h, total_congr hgrown, ha]
  simp

theorem total_nonneg (h : ∀ n a, held isNull l n = some a → 0 ≤ f a) : 0 ≤ total isNull f l := by
  refine List.sum_nonneg fun x hx => ?_
  obtain ⟨a, ha, rfl⟩ := List.mem_map.mp hx
  obtain ⟨n, hn⟩ := List.mem_iff_getElem?.mp ha
  split
  · exact le_refl 0
  · next hnull => exact h n a (held_eq_some.mpr ⟨hn, by simpa using hnull⟩)

end Slots
