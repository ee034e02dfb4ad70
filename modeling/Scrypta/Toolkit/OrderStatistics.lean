import Mathlib.Data.List.Sort
import Mathlib.Order.Defs.LinearOrder

/-! Order statistics: what stands at a place of a sorted list, told by counting. A list is sorted
by any total order; a median is told by the elements on either side of it. -/

namespace OrderStatistics

variable {α : Type*}

section Sorted

variable {r : α → α → Prop} {s : List α} {p : α → Bool}

/-- The elements that satisfy a predicate closed downwards stand in front. -/
theorem pred_getElem_iff (hs : s.Pairwise r) (hp : ∀ a b, r a b → p b = true → p a = true) {k : ℕ}
    (hk : k < s.length) : p s[k] = true ↔ k < s.countP p := by
  induction s generalizing k with
  | nil => exact absurd hk (Nat.not_lt_zero k)
  | cons a s ih =>
    obtain ⟨hhead, htail⟩ := List.pairwise_cons.1 hs
    by_cases ha : p a = true
    · rw [List.countP_cons_of_pos ha]
      cases k with
      | zero => exact iff_of_true ha (Nat.succ_pos _)
      | succ k =>
        rw [List.getElem_cons_succ, ih htail, Nat.succ_lt_succ_iff]
    · have hnone : ∀ b ∈ s, ¬p b = true := fun b hb hpb => ha (hp a b (hhead b hb) hpb)
      rw [List.countP_cons_of_neg ha, List.countP_eq_zero.2 hnone]
      refine iff_of_false ?_ (Nat.not_lt_zero k)
      cases k with
      | zero => exact ha
      | succ k => exact hnone _ (List.getElem_mem _)

/-- The first element from a place on that is not one of those in front. -/
theorem find?_drop (hs : s.Pairwise r) (hp : ∀ a b, r a b → p b = true → p a = true) (k : ℕ) :
    (s.drop k).find? (fun a => !p a) = s[max k (s.countP p)]? := by
  induction s generalizing k with
  | nil => rw [List.drop_nil, List.find?_nil, List.getElem?_nil]
  | cons a s ih =>
    obtain ⟨hhead, htail⟩ := List.pairwise_cons.1 hs
    by_cases ha : p a = true
    · rw [List.countP_cons_of_pos ha]
      cases k with
      | zero =>
        rw [List.drop_zero, List.find?_cons_of_neg (by simp [ha]), Nat.zero_max,
          List.getElem?_cons_succ]
        simpa using ih htail 0
      | succ k =>
        rw [List.drop_succ_cons, ih htail, Nat.succ_max_succ, List.getElem?_cons_succ]
    · have hnone : s.countP p = 0 :=
        List.countP_eq_zero.2 fun b hb hpb => ha (hp a b (hhead b hb) hpb)
      rw [List.countP_cons_of_neg ha, hnone, Nat.max_zero]
      cases k with
      | zero =>
        rw [List.drop_zero, List.find?_cons_of_pos (by simp [ha]), List.getElem?_cons_zero]
      | succ k =>
        rw [List.drop_succ_cons, ih htail, hnone, Nat.max_zero, List.getElem?_cons_succ]

variable [DecidableRel r] {l : List α} {a b : α} {k i j : ℕ}

/-- The element at a place of the sorted list. -/
def kth (r : α → α → Prop) [DecidableRel r] (l : List α) (k : ℕ) : Option α :=
  (l.insertionSort r)[k]?

theorem kth_eq_some : kth r l k = some a ↔
    ∃ h : k < (l.insertionSort r).length, (l.insertionSort r)[k] = a :=
  List.getElem?_eq_some_iff

theorem exists_kth (hk : k < l.length) : ∃ a, kth r l k = some a :=
  ⟨_, List.getElem?_eq_getElem (by rwa [List.length_insertionSort])⟩

theorem mem_of_kth (h : kth r l k = some a) : a ∈ l :=
  (List.mem_insertionSort r).1 (List.mem_of_getElem? h)

variable [Std.Total r] [IsTrans α r]

theorem kth_iff_countP (hp : ∀ a b, r a b → p b = true → p a = true) (h : kth r l k = some a) :
    p a = true ↔ k < l.countP p := by
  obtain ⟨hk, rfl⟩ := kth_eq_some.1 h
  rw [pred_getElem_iff (List.pairwise_insertionSort r l) hp hk,
    (List.perm_insertionSort r l).countP_eq]

/-- A later place holds an element that is no earlier in the order. -/
theorem kth_mono (hij : i ≤ j) (hi : kth r l i = some a) (hj : kth r l j = some b) : r a b := by
  obtain ⟨hik, rfl⟩ := kth_eq_some.1 hi
  obtain ⟨hjk, rfl⟩ := kth_eq_some.1 hj
  rcases Nat.eq_or_lt_of_le hij with rfl | hlt
  · exact refl_of r _
  · exact List.pairwise_iff_getElem.1 (List.pairwise_insertionSort r l) i j hik hjk hlt

/-- Where no two elements are equal, a place is told by the number of elements before it. -/
theorem kth_eq_some_iff_countP (hnodup : l.Nodup) (hanti : ∀ a b, r a b → r b a → a = b) :
    kth r l k = some a ↔ a ∈ l ∧ l.countP (fun b => !decide (r a b)) = k := by
  have hclosed : ∀ b c, r b c → (!decide (r a c)) = true → (!decide (r a b)) = true := by
    intro b c hbc hc
    rw [Bool.not_eq_true', decide_eq_false_iff_not] at hc ⊢
    exact fun hab => hc (trans_of r hab hbc)
  have hplace : ∀ j, kth r l j = some a → l.countP (fun b => !decide (r a b)) = j := by
    intro j h
    have hle := kth_iff_countP hclosed h
    rw [decide_eq_true (refl_of r a)] at hle
    cases j with
    | zero => exact Nat.eq_zero_of_not_pos (mt hle.2 Bool.false_ne_true)
    | succ j =>
      have hlt : j + 1 < l.length := by
        obtain ⟨hlt, -⟩ := kth_eq_some.1 h
        rwa [List.length_insertionSort] at hlt
      obtain ⟨b, hb⟩ := exists_kth (r := r) (Nat.lt_of_succ_lt hlt)
      have hne : b ≠ a := by
        rintro rfl
        obtain ⟨h₁, heq₁⟩ := kth_eq_some.1 hb
        obtain ⟨h₂, heq₂⟩ := kth_eq_some.1 h
        have hsorted := (List.perm_insertionSort r l).nodup_iff.2 hnodup
        have hplaces := (List.Nodup.getElem_inj_iff hsorted).1 (heq₁.trans heq₂.symm)
        omega
      have hnot : ¬r a b := fun hab => hne (hanti b a (kth_mono (Nat.le_succ j) hb h) hab)
      have hb' := (kth_iff_countP hclosed hb).1 (by simp [hnot])
      have ha := mt hle.2 Bool.false_ne_true
      omega
  constructor
  · intro h
    exact ⟨mem_of_kth h, hplace k h⟩
  · rintro ⟨hmem, rfl⟩
    obtain ⟨j, hj, heq⟩ := List.getElem_of_mem ((List.mem_insertionSort r).2 hmem)
    have hkth : kth r l j = some a := kth_eq_some.2 ⟨hj, heq⟩
    rw [hplace j hkth]
    exact hkth

end Sorted

section Median

variable [LinearOrder α] {l : List α} {m m' : α}

/-- Not more than half of the list is below the element, and not more than half is above it. -/
structure IsMedian (l : List α) (m : α) : Prop where
  mem : m ∈ l
  below : 2 * l.countP (fun a => decide (a < m)) ≤ l.length
  above : 2 * l.countP (fun a => decide (m < a)) ≤ l.length

theorem countP_le_add_countP_lt (l : List α) (m : α) :
    l.countP (fun a => decide (a ≤ m)) + l.countP (fun a => decide (m < a)) = l.length := by
  rw [List.length_eq_countP_add_countP (fun a => decide (a ≤ m))]
  congr 2
  funext a
  simp

/-- The medians of a list of odd length are the element in the middle of the sorted list. -/
theorem isMedian_iff_kth (hodd : l.length % 2 = 1) :
    IsMedian l m ↔ kth (· ≤ ·) l (l.length / 2) = some m := by
  obtain ⟨a, ha⟩ : ∃ a, kth (· ≤ ·) l (l.length / 2) = some a := exists_kth (by omega)
  have hsum := countP_le_add_countP_lt l
  have hle : ∀ b, a ≤ b ↔ l.length / 2 < l.countP fun x => decide (x ≤ b) := fun b => by
    rw [← kth_iff_countP (fun x y hxy hy => decide_eq_true (hxy.trans (of_decide_eq_true hy))) ha,
      decide_eq_true_iff]
  have hlt : ∀ b, a < b ↔ l.length / 2 < l.countP fun x => decide (x < b) := fun b => by
    rw [← kth_iff_countP (fun x y hxy hy => decide_eq_true (hxy.trans_lt (of_decide_eq_true hy)))
      ha, decide_eq_true_iff]
  rw [ha, Option.some.injEq]
  constructor
  · rintro ⟨-, hbelow, habove⟩
    have hm := hsum m
    refine le_antisymm ((hle m).2 (by omega)) (not_lt.1 fun h => ?_)
    have hcount := (hlt m).1 h
    omega
  · rintro rfl
    have ha' := hsum a
    have hcount := (hle a).1 le_rfl
    have hbelow := mt (hlt a).2 (lt_irrefl a)
    exact ⟨mem_of_kth ha, by omega, by omega⟩

theorem IsMedian.unique (hodd : l.length % 2 = 1) (h : IsMedian l m) (h' : IsMedian l m') :
    m = m' := by
  rw [isMedian_iff_kth hodd] at h h'
  exact Option.some.inj (h.symm.trans h')

/-- A least element is the median where more than half of the list is this element. -/
theorem isMedian_least_iff (hodd : l.length % 2 = 1) (hleast : ∀ a ∈ l, m ≤ a) :
    IsMedian l m ↔ l.length < 2 * l.count m := by
  have hsum := countP_le_add_countP_lt l m
  have hcount : l.countP (fun a => decide (a ≤ m)) = l.count m := by
    rw [List.count]
    refine List.countP_congr fun a ha => ?_
    rw [decide_eq_true_iff, beq_iff_eq]
    exact ⟨fun h => le_antisymm h (hleast a ha), le_of_eq⟩
  constructor
  · intro h
    have habove := h.above
    omega
  · intro h
    have hnone : l.countP (fun a => decide (a < m)) = 0 :=
      List.countP_eq_zero.2 fun a ha hlt => absurd (hleast a ha) (not_le.2 (of_decide_eq_true hlt))
    exact ⟨List.count_pos_iff.1 (by omega), by omega, by omega⟩

end Median

section Highest

variable [LinearOrder α] {l : List α} {m m' : α} {k : ℕ}

/-- Not more than `k` elements of the list are higher, and more than `k` are at least as high. -/
structure IsKthHighest (l : List α) (k : ℕ) (m : α) : Prop where
  mem : m ∈ l
  above : l.countP (fun a => decide (m < a)) ≤ k
  upto : k < l.countP (fun a => decide (m ≤ a))

theorem isKthHighest_of_kth (h : kth (· ≥ ·) l k = some m) : IsKthHighest l k m := by
  have hlt := kth_iff_countP (p := fun a => decide (m < a))
    (fun a b hab hb => decide_eq_true ((of_decide_eq_true hb).trans_le hab)) h
  have hle := kth_iff_countP (p := fun a => decide (m ≤ a))
    (fun a b hab hb => decide_eq_true ((of_decide_eq_true hb).trans hab)) h
  rw [decide_eq_true_iff] at hlt hle
  exact ⟨mem_of_kth h, not_lt.1 (mt hlt.2 (lt_irrefl m)), hle.1 le_rfl⟩

end Highest

end OrderStatistics
