import Mathlib.Data.List.Nodup
import Mathlib.Data.List.Perm.Subperm
import Mathlib.Order.Defs.LinearOrder
import Mathlib.Order.Lattice

/-! A register that holds one value and takes the values it receives by a rule. The first value
is always taken; after that a value is taken when the rule says that it replaces the one held.
The rule only ever moves up in some measure, but need not be transitive, so in general the order
of arrival matters. The theorems say exactly when it does not. -/

namespace Register

variable {α β : Type*} [LinearOrder β]

section Machine

variable (replaces : α → α → Bool)

def receive : Option α → α → Option α
  | none, v => some v
  | some u, v => if replaces u v then some v else some u

def final (s : Option α) (l : List α) : Option α := l.foldl (receive replaces) s

/-- What the register can come to hold while it receives values of `l` in some order. -/
inductive Reaches (s : Option α) (l : List α) : α → Prop
  | start {v : α} : s = some v → Reaches s l v
  | first {v : α} : s = none → v ∈ l → Reaches s l v
  | next {u v : α} : Reaches s l u → v ∈ l → replaces u v = true → Reaches s l v

/-- The rule moves up. -/
def Rising (time : α → β) : Prop := ∀ u v, replaces u v = true → time u < time v

end Machine

variable {replaces : α → α → Bool} {time : α → β}

@[simp] theorem final_cons (s : Option α) (v : α) (l : List α) :
    final replaces s (v :: l) = final replaces (receive replaces s v) l := rfl

theorem final_append (s : Option α) (l m : List α) :
    final replaces s (l ++ m) = final replaces (final replaces s l) m :=
  List.foldl_append

theorem receive_some_of_not {u v : α} (h : replaces u v = false) :
    receive replaces (some u) v = some u := by
  simp [receive, h]

theorem receive_some_of {u v : α} (h : replaces u v = true) :
    receive replaces (some u) v = some v := by
  simp [receive, h]

/-- Either the value is kept out, or it is now held. -/
theorem receive_cases (s : Option α) (v : α) :
    receive replaces s v = some v ∨ ∃ u, s = some u ∧ replaces u v = false ∧
      receive replaces s v = some u := by
  cases s with
  | none => exact Or.inl rfl
  | some u =>
    cases h : replaces u v with
    | true => exact Or.inl (receive_some_of h)
    | false => exact Or.inr ⟨u, rfl, h, receive_some_of_not h⟩

/-- A value that nothing replaces stays. -/
theorem final_of_stuck {u : α} {l : List α} (h : ∀ v ∈ l, replaces u v = false) :
    final replaces (some u) l = some u := by
  induction l with
  | nil => rfl
  | cons v l ih =>
    rw [final_cons, receive_some_of_not (h v List.mem_cons_self)]
    exact ih fun w hw => h w (List.mem_cons_of_mem v hw)

theorem receive_reaches {s t : Option α} {l : List α} {v w : α} (hv : v ∈ l)
    (hs : t = none → s = none) (ht : ∀ u, t = some u → Reaches replaces s l u)
    (h : receive replaces t v = some w) : Reaches replaces s l w := by
  rcases receive_cases t v with hnew | ⟨u, hu, _, hold⟩
  · obtain rfl : v = w := Option.some.inj (hnew.symm.trans h)
    cases t with
    | none => exact .first (hs rfl) hv
    | some u =>
      rw [receive] at h
      split at h
      · next hr => exact .next (ht u rfl) hv hr
      · obtain rfl : u = v := Option.some.inj h
        exact ht u rfl
  · obtain rfl : u = w := Option.some.inj (hold.symm.trans h)
    exact ht u hu

theorem receive_isSome (t : Option α) (v : α) : receive replaces t v ≠ none := by
  rcases receive_cases t v with h | ⟨u, _, _, h⟩
  · exact h ▸ Option.some_ne_none v
  · exact h ▸ Option.some_ne_none u

theorem final_reaches {s t : Option α} {l m : List α} (hm : m ⊆ l) (hs : t = none → s = none)
    (ht : ∀ u, t = some u → Reaches replaces s l u) {w : α}
    (h : final replaces t m = some w) : Reaches replaces s l w := by
  induction m generalizing t with
  | nil => exact ht w h
  | cons v m ih =>
    refine ih (List.subset_of_cons_subset hm) (fun hn => absurd hn (receive_isSome t v)) ?_ h
    intro u hu
    exact receive_reaches (hm List.mem_cons_self) hs ht hu

theorem final_eq_none {s : Option α} {l : List α} (h : final replaces s l = none) :
    s = none ∧ l = [] := by
  induction l generalizing s with
  | nil => exact ⟨h, rfl⟩
  | cons v l ih => exact absurd (ih h).1 (receive_isSome s v)

/-- A value that replaces every other one that can be held ends up in the register. -/
theorem final_of_dominates (hrise : Rising replaces time) {s : Option α} {l : List α} {v : α}
    (hv : Reaches replaces s l v)
    (hdom : ∀ u, Reaches replaces s l u → u ≠ v → replaces u v = true) :
    final replaces s l = some v := by
  have hstuck : ∀ w ∈ l, replaces v w = false := by
    intro w hw
    by_contra hr
    have hr : replaces v w = true := by simpa using hr
    have hlt := hrise v w hr
    have hback := hdom w (.next hv hw hr) fun h => lt_irrefl (time v) (h ▸ hlt)
    exact lt_asymm hlt (hrise w v hback)
  -- the run from any value that can be held, as soon as `v` is held or still to come
  have hrun : ∀ (m : List α) (t : Option α), m ⊆ l → (t = none → s = none) →
      (∀ u, t = some u → Reaches replaces s l u) → (t = some v ∨ v ∈ m) →
      final replaces t m = some v := by
    intro m
    induction m with
    | nil =>
      intro t _ _ _ hin
      rcases hin with h | h
      · exact h
      · cases h
    | cons w m ih =>
      intro t hm hs ht hin
      have hw : w ∈ l := hm List.mem_cons_self
      refine ih (receive replaces t w) (List.subset_of_cons_subset hm)
        (fun hn => absurd hn (receive_isSome t w))
        (fun u hu => receive_reaches hw hs ht hu) ?_
      rcases hin with rfl | hin
      · exact Or.inl (receive_some_of_not (hstuck w hw))
      · rcases List.mem_cons.mp hin with rfl | hin
        · left
          rcases @receive_cases _ replaces t v with h | ⟨u, hu, hno, h⟩
          · exact h
          · by_cases huv : u = v
            · rw [h, huv]
            · exact absurd (hdom u (ht u hu) huv) (by simp [hno])
        · exact Or.inr hin
  refine hrun l s (fun _ h => h) id (fun u hu => .start hu) ?_
  cases hv with
  | start h => exact Or.inl h
  | first _ h => exact Or.inr h
  | next _ h _ => exact Or.inr h

/-- A value that can be held is held after some of the values of `l`, each received once, and
none of them is above it. -/
theorem Reaches.exists_path (hrise : Rising replaces time) {s : Option α} {l : List α} {u : α}
    (h : Reaches replaces s l u) :
    ∃ p, p ⊆ l ∧ p.Nodup ∧ (∀ w ∈ p, w = u ∨ time w < time u) ∧
      final replaces s p = some u := by
  induction h with
  | start h => exact ⟨[], List.nil_subset l, List.nodup_nil, by simp, h⟩
  | @first v h hv =>
    refine ⟨[v], by simpa using hv, List.nodup_singleton v, by simp, ?_⟩
    rw [h]
    rfl
  | @next u v hu hv hr ih =>
    obtain ⟨p, hpl, hnodup, hle, hfinal⟩ := ih
    have hlt := hrise u v hr
    have hbelow : ∀ w ∈ p, time w < time v := by
      intro w hw
      rcases hle w hw with rfl | h
      · exact hlt
      · exact lt_trans h hlt
    refine ⟨p ++ [v], ?_, ?_, ?_, ?_⟩
    · exact List.append_subset.mpr ⟨hpl, by simpa using hv⟩
    · refine List.nodup_append.mpr ⟨hnodup, List.nodup_singleton v, ?_⟩
      intro a ha b hb hab
      obtain rfl : b = v := by simpa using hb
      exact lt_irrefl (time b) (hbelow b (hab ▸ ha))
    · intro w hw
      rcases List.mem_append.mp hw with hw | hw
      · exact Or.inr (hbelow w hw)
      · exact Or.inl (by simpa using hw)
    · rw [final_append, hfinal]
      exact receive_some_of hr

theorem time_le_final (hrise : Rising replaces time) {u w : α} {l : List α}
    (h : final replaces (some u) l = some w) : time u ≤ time w := by
  induction l generalizing u with
  | nil => exact le_of_eq (congrArg time (Option.some.inj h))
  | cons v l ih =>
    rw [final_cons] at h
    cases hr : replaces u v with
    | true => exact le_trans (le_of_lt (hrise u v hr)) (ih (receive_some_of hr ▸ h))
    | false => exact ih (receive_some_of_not hr ▸ h)

/-- What is held in the end was held at the start or received. -/
theorem final_mem {u w : α} {l : List α} (h : final replaces (some u) l = some w) :
    w = u ∨ w ∈ l := by
  have hreach := final_reaches (s := some u) (t := some u) (List.Subset.refl l) id
    (fun v hv => .start hv) h
  cases hreach with
  | start h => exact Or.inl (Option.some.inj h).symm
  | first h _ => cases h
  | next _ h _ => exact Or.inr h

/-- When `v` does not replace `u`, some order of arrival ends with another value than `v`. -/
theorem exists_perm_final_ne (hrise : Rising replaces time) [DecidableEq α] {s : Option α}
    {l : List α} {u v : α} (hu : Reaches replaces s l u) (huv : u ≠ v)
    (hno : replaces u v = false) : ∃ l', l'.Perm l ∧ final replaces s l' ≠ some v := by
  obtain ⟨p, hpl, hnodup, hle, hfinal⟩ := hu.exists_path hrise
  obtain ⟨p', hp', hsub⟩ := List.subperm_of_subset hnodup hpl
  obtain ⟨rest, hl⟩ := hsub.exists_perm_append
  have hrest : l.Perm (p ++ rest) := hl.trans (hp'.append_right rest)
  by_cases hvp : v ∈ p
  · have hlt : time v < time u := (hle v hvp).resolve_left fun h => huv h.symm
    refine ⟨p ++ rest, hrest.symm, fun h => ?_⟩
    rw [final_append, hfinal] at h
    exact absurd hlt (not_lt.mpr (time_le_final hrise h))
  · -- all copies of `v` arrive while `u` is held
    refine ⟨p ++ (rest.filter (· = v) ++ rest.filter fun x => !decide (x = v)), ?_, fun h => ?_⟩
    · refine List.Perm.trans ?_ hrest.symm
      exact (List.filter_append_perm _ rest).append_left p
    · have hstuck : ∀ w ∈ rest.filter (· = v), replaces u w = false := by
        intro w hw
        obtain rfl : w = v := by simpa using (List.mem_filter.mp hw).2
        exact hno
      rw [final_append, hfinal, final_append, final_of_stuck hstuck] at h
      rcases final_mem h with h | h
      · exact huv h.symm
      · simpa using (List.mem_filter.mp h).2

/-- The order of arrival makes no difference exactly when nothing can be held at all, or one
value replaces every other one that can be. -/
theorem final_perm_iff (hrise : Rising replaces time) [DecidableEq α] (s : Option α)
    (l : List α) :
    (∀ l₁ l₂, l₁.Perm l → l₂.Perm l → final replaces s l₁ = final replaces s l₂) ↔
      (s = none ∧ l = []) ∨ ∃ v, Reaches replaces s l v ∧
        ∀ u, Reaches replaces s l u → u ≠ v → replaces u v = true := by
  constructor
  · intro hall
    cases hf : final replaces s l with
    | none => exact Or.inl (final_eq_none hf)
    | some v =>
      refine Or.inr ⟨v, final_reaches (List.Subset.refl l) id (fun u hu => .start hu) hf, ?_⟩
      intro u hu huv
      by_contra hno
      obtain ⟨l', hl', hne⟩ := exists_perm_final_ne hrise hu huv (by simpa using hno)
      exact hne ((hall l' l hl' (List.Perm.refl l)).trans hf)
  · rintro (⟨rfl, rfl⟩ | ⟨v, hv, hdom⟩) l₁ l₂ h₁ h₂
    · rw [h₁.eq_nil, h₂.eq_nil]
    · have hsame : ∀ l', l'.Perm l → ∀ u, Reaches replaces s l' u ↔ Reaches replaces s l u := by
        intro l' hl' u
        constructor
        · intro h
          induction h with
          | start h => exact .start h
          | first h hm => exact .first h (hl'.mem_iff.mp hm)
          | next _ hm hr ih => exact .next ih (hl'.mem_iff.mp hm) hr
        · intro h
          induction h with
          | start h => exact .start h
          | first h hm => exact .first h (hl'.mem_iff.mpr hm)
          | next _ hm hr ih => exact .next ih (hl'.mem_iff.mpr hm) hr
      have hend : ∀ l', l'.Perm l → final replaces s l' = some v := fun l' hl' =>
        final_of_dominates hrise ((hsame l' hl' v).mpr hv)
          fun u hu => hdom u ((hsame l' hl' u).mp hu)
      rw [hend l₁ h₁, hend l₂ h₂]

end Register
