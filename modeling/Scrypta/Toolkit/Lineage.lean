import Mathlib.Data.List.Basic
import Mathlib.Order.Basic

/-! A node of a rooted forest, together with all its ancestors. The order is ancestry:
`a ≤ b` when `a` lies on the line from `b` down to its root, so every down-set is a chain. -/

inductive Lineage (α : Type*)
  | root (a : α)
  | child (parent : Lineage α) (a : α)
  deriving DecidableEq

namespace Lineage

variable {α : Type*}

def label : Lineage α → α
  | root a => a
  | child _ a => a

def parent? : Lineage α → Option (Lineage α)
  | root _ => none
  | child p _ => some p

def height : Lineage α → ℕ
  | root _ => 0
  | child p _ => p.height + 1

/-- The node and its ancestors, the youngest first. -/
def line : Lineage α → List (Lineage α)
  | root a => [root a]
  | child p a => child p a :: p.line

/-- The node and its ancestors, the root first. -/
def branch (b : Lineage α) : List (Lineage α) := b.line.reverse

@[simp] theorem height_root (a : α) : (root a).height = 0 := rfl

@[simp] theorem height_child (p : Lineage α) (a : α) : (child p a).height = p.height + 1 := rfl

@[simp] theorem branch_root (a : α) : (root a).branch = [root a] := rfl

@[simp] theorem branch_child (p : Lineage α) (a : α) :
    (child p a).branch = p.branch ++ [child p a] := by
  simp [branch, line]

@[simp] theorem length_line (b : Lineage α) : b.line.length = b.height + 1 := by
  induction b with
  | root a => rfl
  | child p a ih => simp [line, ih]

@[simp] theorem length_branch (b : Lineage α) : b.branch.length = b.height + 1 := by
  simp [branch]

theorem self_mem_line (b : Lineage α) : b ∈ b.line := by
  cases b <;> simp [line]

theorem mem_line_trans {a b c : Lineage α} (hab : a ∈ b.line) (hbc : b ∈ c.line) :
    a ∈ c.line := by
  induction c with
  | root x =>
    obtain rfl : b = root x := by simpa [line] using hbc
    exact hab
  | child p x ih =>
    rcases List.mem_cons.mp hbc with rfl | hb
    · exact hab
    · exact List.mem_cons_of_mem _ (ih hb)

theorem height_le_of_mem_line {a b : Lineage α} (h : a ∈ b.line) : a.height ≤ b.height := by
  induction b with
  | root x =>
    obtain rfl : a = root x := by simpa [line] using h
    exact Nat.le_refl _
  | child p x ih =>
    rcases List.mem_cons.mp h with rfl | h
    · exact Nat.le_refl _
    · exact Nat.le_succ_of_le (ih h)

theorem eq_of_mem_line_of_height {a b : Lineage α} (h : a ∈ b.line)
    (hh : a.height = b.height) : a = b := by
  cases b with
  | root x => simpa [line] using h
  | child p x =>
    rcases List.mem_cons.mp h with h | h
    · exact h
    · have := height_le_of_mem_line h
      simp only [height_child] at hh
      omega

instance : PartialOrder (Lineage α) where
  le a b := a ∈ b.line
  le_refl := self_mem_line
  le_trans _ _ _ := mem_line_trans
  le_antisymm _ _ hab hba :=
    eq_of_mem_line_of_height hab
      (Nat.le_antisymm (height_le_of_mem_line hab) (height_le_of_mem_line hba))

theorem le_iff_mem_line {a b : Lineage α} : a ≤ b ↔ a ∈ b.line := Iff.rfl

theorem le_iff_mem_branch {a b : Lineage α} : a ≤ b ↔ a ∈ b.branch := by
  rw [branch, List.mem_reverse]
  rfl

instance [DecidableEq α] : DecidableLE (Lineage α) :=
  fun a b => inferInstanceAs (Decidable (a ∈ b.line))

@[simp] theorem le_root {a : Lineage α} {x : α} : a ≤ root x ↔ a = root x := by
  simp [le_iff_mem_line, line]

theorem le_child {a p : Lineage α} {x : α} : a ≤ child p x ↔ a = child p x ∨ a ≤ p := by
  simp [le_iff_mem_line, line]

theorem parent_le (p : Lineage α) (x : α) : p ≤ child p x := le_child.mpr (Or.inr le_rfl)

theorem height_mono {a b : Lineage α} (h : a ≤ b) : a.height ≤ b.height :=
  height_le_of_mem_line h

theorem eq_of_le_of_height {a b : Lineage α} (h : a ≤ b) (hh : a.height = b.height) : a = b :=
  eq_of_mem_line_of_height h hh

theorem height_lt {a b : Lineage α} (h : a < b) : a.height < b.height := by
  refine Nat.lt_of_le_of_ne (height_mono h.le) fun hh => ?_
  exact h.ne (eq_of_le_of_height h.le hh)

/-- Two ancestors of one node are comparable. -/
theorem le_total_of_le {a b c : Lineage α} (ha : a ≤ c) (hb : b ≤ c) : a ≤ b ∨ b ≤ a := by
  induction c with
  | root x =>
    obtain rfl := le_root.mp ha
    exact Or.inr (le_root.mp hb ▸ le_rfl)
  | child p x ih =>
    rcases le_child.mp ha with rfl | hap
    · exact Or.inr hb
    · rcases le_child.mp hb with rfl | hbp
      · exact Or.inl ha
      · exact ih hap hbp

theorem le_of_height_le {a b c : Lineage α} (ha : a ≤ c) (hb : b ≤ c)
    (hh : a.height ≤ b.height) : a ≤ b := by
  rcases le_total_of_le ha hb with h | h
  · exact h
  · exact (eq_of_le_of_height h (Nat.le_antisymm (height_mono h) hh)).ge

theorem branch_prefix {a b : Lineage α} (h : a ≤ b) : a.branch <+: b.branch := by
  induction b with
  | root x =>
    obtain rfl := le_root.mp h
    exact List.prefix_refl _
  | child p x ih =>
    rcases le_child.mp h with rfl | hp
    · exact List.prefix_refl _
    · exact (ih hp).trans ⟨[child p x], by simp⟩

theorem getElem?_branch_height (b : Lineage α) : b.branch[b.height]? = some b := by
  cases b with
  | root x => rfl
  | child p x => simp

theorem getLast?_branch (b : Lineage α) : b.branch.getLast? = some b := by
  cases b with
  | root x => rfl
  | child p x => simp

/-- The branch holds at each height the one ancestor of that height. -/
theorem getElem?_branch {a b : Lineage α} {h : ℕ} :
    b.branch[h]? = some a ↔ a ≤ b ∧ a.height = h := by
  constructor
  · induction b with
    | root x =>
      intro hh
      cases h with
      | zero =>
        obtain rfl : root x = a := by simpa using hh
        exact ⟨le_rfl, rfl⟩
      | succ h => simp at hh
    | child p x ih =>
      intro hh
      rw [branch_child] at hh
      by_cases hlt : h < p.height + 1
      · rw [List.getElem?_append_left (by simpa using hlt)] at hh
        obtain ⟨hle, he⟩ := ih hh
        exact ⟨hle.trans (parent_le p x), he⟩
      · rw [List.getElem?_append_right (by simpa using hlt), length_branch] at hh
        obtain ⟨hz, rfl⟩ : h - (p.height + 1) = 0 ∧ child p x = a := by
          simpa [List.getElem?_singleton] using hh
        exact ⟨le_rfl, by simp only [height_child]; omega⟩
  · rintro ⟨hle, rfl⟩
    obtain ⟨t, ht⟩ := branch_prefix hle
    have h := getElem?_branch_height a
    rw [← ht, List.getElem?_append_left (by simp), h]

section Map

variable {β : Type*} (f : α → β)

/-- The same line with other data. -/
def map : Lineage α → Lineage β
  | root a => root (f a)
  | child p a => child (map p) (f a)

@[simp] theorem label_map (b : Lineage α) : (b.map f).label = f b.label := by
  cases b <;> rfl

@[simp] theorem height_map (b : Lineage α) : (b.map f).height = b.height := by
  induction b with
  | root a => rfl
  | child p a ih => simp [map, ih]

theorem branch_map (b : Lineage α) : (b.map f).branch = b.branch.map (map f) := by
  induction b with
  | root a => rfl
  | child p a ih => simp [map, ih]

variable {f}

theorem map_le_map {x b : Lineage α} (h : x ≤ b) : x.map f ≤ b.map f := by
  rw [le_iff_mem_branch] at h ⊢
  rw [branch_map]
  exact List.mem_map_of_mem h

theorem exists_le_of_le_map {y : Lineage β} {b : Lineage α} (h : y ≤ b.map f) :
    ∃ x ≤ b, x.map f = y := by
  rw [le_iff_mem_branch, branch_map] at h
  obtain ⟨x, hx, hxy⟩ := List.mem_map.mp h
  exact ⟨x, le_iff_mem_branch.mpr hx, hxy⟩

theorem map_eq_root {b : Lineage α} {y : β} (h : b.map f = root y) :
    ∃ a, b = root a ∧ f a = y := by
  cases b with
  | root a => exact ⟨a, rfl, by simpa [map] using h⟩
  | child p a => cases h

theorem map_eq_child {b : Lineage α} {q : Lineage β} {y : β} (h : b.map f = child q y) :
    ∃ p a, b = child p a ∧ p.map f = q ∧ f a = y := by
  cases b with
  | root a => cases h
  | child p a =>
    simp only [map, child.injEq] at h
    exact ⟨p, a, rfl, h.1, h.2⟩

end Map

end Lineage
