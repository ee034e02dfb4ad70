import Mathlib.Data.List.Basic
import Mathlib.Order.Basic
import Mathlib.Order.Lattice

/-! Picking from a list by a key: the scan that keeps the first entry with the largest key, and the
place of an entry after sorting from the largest key down. Neither depends on the order of the list
where no tie decides. -/

namespace Standings

variable {α K : Type*} [LinearOrder K] (key : α → K)

/-- Keep the entry when its key is above the best so far. -/
def champion : K → Option α → List α → Option α
  | _, best, [] => best
  | top, best, x :: rest =>
    if top < key x then champion (key x) (some x) rest else champion top best rest

theorem champion_cases (top : K) (best : Option α) (l : List α) :
    champion key top best l = best ∧ (∀ x ∈ l, key x ≤ top) ∨
      ∃ x ∈ l, champion key top best l = some x ∧ top < key x ∧ ∀ y ∈ l, key y ≤ key x := by
  induction l generalizing top best with
  | nil => exact Or.inl ⟨rfl, fun _ hx => nomatch hx⟩
  | cons x rest ih =>
    rw [champion]
    by_cases hx : top < key x
    · rw [if_pos hx]
      rcases ih (key x) (some x) with ⟨heq, hrest⟩ | ⟨y, hy, heq, hlt, hrest⟩
      · refine Or.inr ⟨x, List.mem_cons_self, heq, hx, ?_⟩
        exact List.forall_mem_cons.mpr ⟨le_refl _, hrest⟩
      · refine Or.inr ⟨y, List.mem_cons_of_mem _ hy, heq, hx.trans hlt, ?_⟩
        exact List.forall_mem_cons.mpr ⟨hlt.le, hrest⟩
    · rw [if_neg hx]
      rcases ih top best with ⟨heq, hrest⟩ | ⟨y, hy, heq, hlt, hrest⟩
      · exact Or.inl ⟨heq, List.forall_mem_cons.mpr ⟨not_lt.mp hx, hrest⟩⟩
      · refine Or.inr ⟨y, List.mem_cons_of_mem _ hy, heq, hlt, ?_⟩
        exact List.forall_mem_cons.mpr ⟨(not_lt.mp hx).trans hlt.le, hrest⟩

variable {key}

/-- No two entries share a largest key above `top`. -/
def TopApart (key : α → K) (top : K) (l : List α) : Prop :=
  ∀ x ∈ l, ∀ y ∈ l, top < key x → key x = key y → (∀ z ∈ l, key z ≤ key x) → x = y

theorem champion_congr {top : K} {l l' : List α} (hmem : ∀ x, x ∈ l ↔ x ∈ l')
    (hapart : TopApart key top l) :
    champion key top none l = champion key top none l' := by
  rcases champion_cases key top none l with ⟨heq, hle⟩ | ⟨x, hx, heq, hlt, hle⟩ <;>
    rcases champion_cases key top none l' with ⟨heq', hle'⟩ | ⟨x', hx', heq', hlt', hle'⟩
  · rw [heq, heq']
  · exact absurd (hle x' ((hmem x').mpr hx')) (not_le.mpr hlt')
  · exact absurd (hle' x ((hmem x).mp hx)) (not_le.mpr hlt)
  · have hkey : key x = key x' :=
      le_antisymm (hle' x ((hmem x).mp hx)) (hle x' ((hmem x').mpr hx'))
    rw [heq, heq', hapart x hx x' ((hmem x').mpr hx') hlt hkey hle]

/-- From the largest key down, an entry comes after those with a larger key. -/
theorem findIdx_eq_countP {p : α → Bool} {k : K} {l : List α}
    (hsorted : l.Pairwise fun x y => key y ≤ key x) (hp : ∀ x ∈ l, p x = true ↔ key x = k)
    (hex : ∃ x ∈ l, p x = true) : l.findIdx p = l.countP fun x => decide (k < key x) := by
  induction l with
  | nil => simp at hex
  | cons x rest ih =>
    obtain ⟨hfirst, hrest⟩ := List.pairwise_cons.mp hsorted
    by_cases hx : p x = true
    · have hkey : key x = k := (hp x List.mem_cons_self).mp hx
      have hnone : ∀ y ∈ x :: rest, ¬k < key y :=
        List.forall_mem_cons.mpr ⟨hkey ▸ lt_irrefl _, fun y hy => not_lt.mpr (hkey ▸ hfirst y hy)⟩
      rw [List.findIdx_cons, hx, cond_true, List.countP_eq_zero.mpr]
      simpa using hnone
    · obtain ⟨y, hy, hpy⟩ := hex
      have hyrest : y ∈ rest := by
        rcases List.mem_cons.mp hy with rfl | hyrest
        · exact absurd hpy hx
        · exact hyrest
      have hkey : key y = k := (hp y hy).mp hpy
      have hlt : k < key x := by
        refine lt_of_le_of_ne (hkey ▸ hfirst y hyrest) fun heq => hx ?_
        exact (hp x List.mem_cons_self).mpr heq.symm
      have hrec := ih hrest (fun z hz => hp z (List.mem_cons_of_mem _ hz)) ⟨y, hyrest, hpy⟩
      have hxf : p x = false := by simpa using hx
      rw [List.findIdx_cons, hxf, cond_false, hrec, List.countP_cons_of_pos (by simpa using hlt)]

/-- The place after sorting is the same for every way to break the other ties. -/
theorem findIdx_perm (key : α → K) {p : α → Bool} {k : K} {l l' : List α} (hperm : l.Perm l')
    (hsorted : l.Pairwise fun x y => key y ≤ key x)
    (hsorted' : l'.Pairwise fun x y => key y ≤ key x)
    (hp : ∀ x ∈ l, p x = true ↔ key x = k) (hex : ∃ x ∈ l, p x = true) :
    l.findIdx p = l'.findIdx p := by
  have hp' : ∀ x ∈ l', p x = true ↔ key x = k := fun x hx => hp x (hperm.mem_iff.mpr hx)
  have hex' : ∃ x ∈ l', p x = true := by
    obtain ⟨x, hx, hpx⟩ := hex
    exact ⟨x, hperm.mem_iff.mp hx, hpx⟩
  rw [findIdx_eq_countP hsorted hp hex, findIdx_eq_countP hsorted' hp' hex', hperm.countP_eq]

/-- A sorted list is determined by its entries when equal keys mean equal entries. -/
theorem sorted_unique (key : α → K) {l l' : List α} (hperm : l.Perm l')
    (hsorted : l.Pairwise fun x y => key y ≤ key x)
    (hsorted' : l'.Pairwise fun x y => key y ≤ key x)
    (hkey : ∀ x ∈ l, ∀ y ∈ l, key x = key y → x = y) : l = l' := by
  refine List.Perm.eq_of_pairwise ?_ hsorted hsorted' hperm
  intro x y hx hy hle hle'
  exact hkey x hx y (hperm.mem_iff.mpr hy) (le_antisymm hle' hle)

end Standings
