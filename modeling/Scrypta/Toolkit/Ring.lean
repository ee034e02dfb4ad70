import Mathlib.Data.List.DropRight

/-! Bounded buffers. A full buffer drops its oldest element for a new one, so what it holds are the
last elements of all that went in. -/

namespace Ring

variable {α : Type*} {n : ℕ} {l xs : List α}

def push (n : ℕ) (l : List α) (x : α) : List α := (if l.length = n then l.tail else l) ++ [x]

theorem length_push_le (hn : 0 < n) (hl : l.length ≤ n) (x : α) : (push n l x).length ≤ n := by
  rw [push, List.length_append, List.length_singleton]
  split
  · rw [List.length_tail]
    omega
  · omega

theorem push_ne_nil (n : ℕ) (l : List α) (x : α) : push n l x ≠ [] :=
  List.append_ne_nil_of_right_ne_nil _ (List.cons_ne_nil x [])

theorem mem_push {x a : α} (h : a ∈ push n l x) : a ∈ l ∨ a = x := by
  rw [push, List.mem_append, List.mem_singleton] at h
  refine h.imp_left fun hmem => ?_
  split at hmem
  · exact List.mem_of_mem_tail hmem
  · exact hmem

theorem rtake_eq_self (h : l.length ≤ n) : l.rtake n = l := by
  rw [List.rtake, Nat.sub_eq_zero_of_le h, List.drop_zero]

theorem length_rtake_le (n : ℕ) (l : List α) : (l.rtake n).length ≤ n := by
  rw [List.rtake, List.length_drop]
  omega

theorem push_eq_rtake (hn : 0 < n) (hl : l.length ≤ n) (x : α) :
    push n l x = (l ++ [x]).rtake n := by
  unfold push
  split
  · rename_i hfull
    rw [List.rtake, List.length_append, List.length_singleton, hfull, Nat.add_sub_cancel_left,
      List.drop_append_of_le_length (by omega), List.drop_one]
  · rw [rtake_eq_self]
    rw [List.length_append, List.length_singleton]
    omega

theorem rtake_append_rtake (n : ℕ) (l xs : List α) :
    (l.rtake n ++ xs).rtake n = (l ++ xs).rtake n := by
  unfold List.rtake
  rw [List.length_append, List.length_append, List.length_drop]
  rw [List.drop_append, List.drop_append, List.drop_drop, List.length_drop]
  congr 2
  · omega
  · omega

end Ring
