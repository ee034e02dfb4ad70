import Mathlib.Data.List.Nodup

/-! A loop that picks what it wants from a list. It ends at the first element that it wants and
cannot have, and where it has enough. -/

namespace Harvest

variable {α β : Type*} {wants can : α → Bool} {enough : List α → Bool}
  {got l picked : List α} {a : α}

/-- What is picked from a list, besides what is there already. -/
def picks (wants can : α → Bool) (enough : List α → Bool) : List α → List α → List α
  | _, [] => []
  | got, a :: rest =>
    if wants a then
      if can a then
        a :: if enough (got ++ [a]) then [] else picks wants can enough (got ++ [a]) rest
      else []
    else picks wants can enough got rest

/-- More than enough is enough. -/
def Monotone (enough : List α → Bool) : Prop :=
  ∀ l l' : List α, enough l = true → enough (l ++ l') = true

theorem Monotone.false_of_append {l l' : List α} (hmono : Monotone enough)
    (h : enough (l ++ l') = false) : enough l = false := by
  cases hl : enough l with
  | false => rfl
  | true => rw [← h, hmono l l' hl]

/-- An element of the list that is reached, with what is picked before it. -/
structure Reached (wants can : α → Bool) (enough : List α → Bool) (got before : List α) (a : α) :
    Prop where
  wanted : wants a = true
  had : can a = true
  open_before : ∀ b ∈ before, wants b = true → can b = true
  few : enough (got ++ before.filter wants) = false

/-- The list is cut in front of an element that is reached after `picked`. -/
def Cut (wants can : α → Bool) (enough : List α → Bool) (got l picked : List α) (a : α) : Prop :=
  ∃ before after, l = before ++ a :: after ∧ before.filter wants = picked ∧
    Reached wants can enough got before a

section Cons

variable {b : α} {before : List α}

theorem reached_cons_of_not (hb : wants b = false) :
    Reached wants can enough got (b :: before) a ↔ Reached wants can enough got before a := by
  have hfilter : (b :: before).filter wants = before.filter wants :=
    List.filter_cons_of_neg (Bool.eq_false_iff.1 hb)
  constructor
  · intro h
    exact ⟨h.wanted, h.had, fun c hc => h.open_before c (List.mem_cons_of_mem b hc),
      hfilter ▸ h.few⟩
  · intro h
    refine ⟨h.wanted, h.had, fun c hc hwants => ?_, hfilter ▸ h.few⟩
    rcases List.mem_cons.1 hc with rfl | hmem
    · exact absurd hwants (Bool.eq_false_iff.1 hb)
    · exact h.open_before c hmem hwants

theorem reached_cons (hb : wants b = true) (hcan : can b = true) :
    Reached wants can enough got (b :: before) a ↔
      Reached wants can enough (got ++ [b]) before a := by
  have hfilter : got ++ (b :: before).filter wants = got ++ [b] ++ before.filter wants := by
    rw [List.filter_cons_of_pos hb, List.append_assoc]
    rfl
  constructor
  · intro h
    exact ⟨h.wanted, h.had, fun c hc => h.open_before c (List.mem_cons_of_mem b hc),
      hfilter ▸ h.few⟩
  · intro h
    refine ⟨h.wanted, h.had, fun c hc hwants => ?_, hfilter ▸ h.few⟩
    rcases List.mem_cons.1 hc with rfl | hmem
    · exact hcan
    · exact h.open_before c hmem hwants

theorem cut_cons_of_not (hb : wants b = false) :
    Cut wants can enough got (b :: l) picked a ↔ Cut wants can enough got l picked a := by
  constructor
  · rintro ⟨before, after, hl, rfl, hreached⟩
    cases before with
    | nil =>
      obtain ⟨rfl, -⟩ := List.cons.inj hl
      exact absurd hreached.wanted (Bool.eq_false_iff.1 hb)
    | cons c before =>
      obtain ⟨rfl, rfl⟩ := List.cons.inj hl
      exact ⟨before, after, rfl, (List.filter_cons_of_neg (Bool.eq_false_iff.1 hb)).symm,
        (reached_cons_of_not hb).1 hreached⟩
  · rintro ⟨before, after, rfl, rfl, hreached⟩
    exact ⟨b :: before, after, rfl, List.filter_cons_of_neg (Bool.eq_false_iff.1 hb),
      (reached_cons_of_not hb).2 hreached⟩

theorem not_cut_cons (hb : wants b = true) (hcan : can b = false) :
    ¬Cut wants can enough got (b :: l) picked a := by
  rintro ⟨before, after, hl, -, hreached⟩
  cases before with
  | nil =>
    obtain ⟨rfl, -⟩ := List.cons.inj hl
    exact Bool.eq_false_iff.1 hcan hreached.had
  | cons c before =>
    obtain ⟨rfl, -⟩ := List.cons.inj hl
    exact Bool.eq_false_iff.1 hcan (hreached.open_before b List.mem_cons_self hb)

theorem cut_cons_nil (hb : wants b = true) (hcan : can b = true) (hfew : enough got = false) :
    Cut wants can enough got (b :: l) [] a ↔ b = a := by
  constructor
  · rintro ⟨before, after, hl, hpicked, hreached⟩
    cases before with
    | nil => exact (List.cons.inj hl).1
    | cons c before =>
      obtain ⟨rfl, -⟩ := List.cons.inj hl
      rw [List.filter_cons_of_pos hb] at hpicked
      cases hpicked
  · rintro rfl
    refine ⟨[], l, rfl, rfl, hb, hcan, fun c hc => absurd hc List.not_mem_nil, ?_⟩
    rw [List.filter_nil, List.append_nil]
    exact hfew

theorem cut_cons_cons {c : α} (hb : wants b = true) (hcan : can b = true) :
    Cut wants can enough got (b :: l) (c :: picked) a ↔
      b = c ∧ Cut wants can enough (got ++ [b]) l picked a := by
  constructor
  · rintro ⟨before, after, hl, hpicked, hreached⟩
    cases before with
    | nil => cases hpicked
    | cons d before =>
      obtain ⟨rfl, rfl⟩ := List.cons.inj hl
      rw [List.filter_cons_of_pos hb] at hpicked
      obtain ⟨rfl, rfl⟩ := List.cons.inj hpicked
      exact ⟨rfl, before, after, rfl, rfl, (reached_cons hb hcan).1 hreached⟩
  · rintro ⟨rfl, before, after, rfl, rfl, hreached⟩
    exact ⟨b :: before, after, rfl, List.filter_cons_of_pos hb,
      (reached_cons hb hcan).2 hreached⟩

end Cons

theorem Cut.few (hmono : Monotone enough) (h : Cut wants can enough got l picked a) :
    enough got = false := by
  obtain ⟨before, after, -, -, hreached⟩ := h
  exact hmono.false_of_append hreached.few

/-- An element is picked after some others exactly when it is reached, and the others are those
that are wanted before it. -/
theorem picks_split_iff (hmono : Monotone enough) (hfew : enough got = false) :
    (∃ rest, picks wants can enough got l = picked ++ a :: rest) ↔
      Cut wants can enough got l picked a := by
  induction l generalizing got picked with
  | nil => simp [picks, Cut]
  | cons b l ih =>
    rw [picks]
    by_cases hwants : wants b = true
    · rw [if_pos hwants]
      by_cases hcan : can b = true
      · rw [if_pos hcan]
        cases picked with
        | nil =>
          rw [cut_cons_nil hwants hcan hfew]
          constructor
          · rintro ⟨rest, hrest⟩
            exact (List.cons.inj hrest).1
          · rintro rfl
            exact ⟨_, rfl⟩
        | cons c picked =>
          rw [cut_cons_cons hwants hcan]
          by_cases henough : enough (got ++ [b]) = true
          · rw [if_pos henough]
            constructor
            · rintro ⟨rest, hrest⟩
              cases picked <;> cases (List.cons.inj hrest).2
            · rintro ⟨-, hcut⟩
              exact absurd henough (Bool.eq_false_iff.1 (hcut.few hmono))
          · rw [if_neg henough, ← ih (Bool.eq_false_iff.2 henough)]
            constructor
            · rintro ⟨rest, hrest⟩
              exact ⟨(List.cons.inj hrest).1, rest, (List.cons.inj hrest).2⟩
            · rintro ⟨rfl, rest, hrest⟩
              exact ⟨rest, congrArg (b :: ·) hrest⟩
      · rw [if_neg hcan]
        refine iff_of_false ?_ (not_cut_cons hwants (Bool.eq_false_iff.2 hcan))
        rintro ⟨rest, hrest⟩
        exact List.append_ne_nil_of_right_ne_nil _ (List.cons_ne_nil _ _) hrest.symm
    · rw [if_neg hwants, cut_cons_of_not (Bool.eq_false_iff.2 hwants)]
      exact ih hfew

theorem nodup_map_iff_split (f : α → β) (l : List α) :
    (l.map f).Nodup ↔ ∀ before a after, l = before ++ a :: after → ∀ b ∈ before, f b ≠ f a := by
  constructor
  · rintro h before a after rfl b hb heq
    rw [List.map_append, List.nodup_append] at h
    exact h.2.2 (f b) (List.mem_map_of_mem hb) (f a) (List.mem_map_of_mem List.mem_cons_self) heq
  · intro h
    induction l with
    | nil => exact List.nodup_nil
    | cons b l ih =>
      refine List.nodup_cons.2 ⟨fun hmem => ?_, ih fun before a after heq c hc => ?_⟩
      · obtain ⟨a, ha, heq⟩ := List.mem_map.1 hmem
        obtain ⟨before, after, rfl⟩ := List.append_of_mem ha
        exact h (b :: before) a after rfl b List.mem_cons_self heq.symm
      · exact h (b :: before) a after (heq ▸ rfl) c (List.mem_cons_of_mem b hc)

theorem filter_eq_of_nodup_map [DecidableEq β] (f : α → β) {l : List α} (h : (l.map f).Nodup)
    (ha : a ∈ l) : (l.filter fun b => f b = f a) = [a] := by
  obtain ⟨before, after, rfl⟩ := List.append_of_mem ha
  have hbefore := (nodup_map_iff_split f _).1 h before a after rfl
  rw [List.map_append, List.map_cons, List.nodup_append, List.nodup_cons] at h
  have hafter : ∀ b ∈ after, f b ≠ f a := fun b hb heq =>
    h.2.1.1 (heq ▸ List.mem_map_of_mem hb)
  rw [List.filter_append, List.filter_cons_of_pos (by simp),
    List.filter_eq_nil_iff.2 (by simpa using hbefore),
    List.filter_eq_nil_iff.2 (by simpa using hafter), List.nil_append]

end Harvest
