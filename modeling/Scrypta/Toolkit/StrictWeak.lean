import Mathlib.Data.List.AList
import Mathlib.Order.Defs.LinearOrder
import Mathlib.Order.Lattice

/-! Comparisons by a less-than function, of the kind that the ordered containers of a systems
language take, and the set that such a function keeps in order. Values of which neither is less
are one for the set. -/

class StrictWeak {α : Type*} (lt : α → α → Bool) : Prop where
  asymm : ∀ {a b : α}, lt a b = true → lt b a = false
  trans : ∀ {a b c : α}, lt b a = false → lt c b = false → lt c a = false

namespace StrictWeak

variable {α β : Type*}

def cmp (lt : α → α → Bool) (a b : α) : Ordering :=
  if lt a b then .lt else if lt b a then .gt else .eq

theorem cmp_eq_iff {lt : α → α → Bool} {a b : α} :
    cmp lt a b = .eq ↔ lt a b = false ∧ lt b a = false := by
  unfold cmp
  cases lt a b <;> cases lt b a <;> simp

theorem isLE_cmp {lt : α → α → Bool} [StrictWeak lt] {a b : α} :
    (cmp lt a b).isLE = true ↔ lt b a = false := by
  unfold cmp
  cases hab : lt a b with
  | true => simp [asymm hab]
  | false => cases lt b a <;> simp

instance instTransCmp (lt : α → α → Bool) [StrictWeak lt] : Std.TransCmp (cmp lt) where
  eq_swap := by
    intro a b
    unfold cmp
    cases hab : lt a b with
    | true => simp [asymm hab]
    | false => cases lt b a <;> simp
  isLE_trans := by
    intro a b c hab hbc
    rw [isLE_cmp] at hab hbc ⊢
    exact trans hab hbc

/-! Ways to compare. -/

def ltOf [LinearOrder α] (a b : α) : Bool := decide (a < b)

/-- To compare by a part. -/
def pull (f : α → β) (lt : β → β → Bool) (a b : α) : Bool := lt (f a) (f b)

/-- To compare by the second function what the first one does not tell apart. -/
def andThen (lt lt' : α → α → Bool) (a b : α) : Bool := lt a b || (!lt b a && lt' a b)

def lex (lt : α → α → Bool) : List α → List α → Bool
  | _, [] => false
  | [], _ :: _ => true
  | a :: as, b :: bs => lt a b || (!lt b a && lex lt as bs)

instance instLtOf [LinearOrder α] : StrictWeak (ltOf : α → α → Bool) where
  asymm h := decide_eq_false (not_lt_of_gt (of_decide_eq_true h))
  trans hab hbc := decide_eq_false <| not_lt_of_ge <|
    le_trans (le_of_not_gt (of_decide_eq_false hab)) (le_of_not_gt (of_decide_eq_false hbc))

instance instPull (f : α → β) (lt : β → β → Bool) [StrictWeak lt] : StrictWeak (pull f lt) where
  asymm := by
    intro a b h
    have hasymm : lt (f b) (f a) = false := asymm h
    exact hasymm
  trans := by
    intro a b c hab hbc
    have htrans : lt (f c) (f a) = false := trans hab hbc
    exact htrans

/-- A comparison that goes on to `x` where the heads do not decide it. -/
theorem heads_eq_false {lt : α → α → Bool} {a b : α} {x : Bool} :
    (lt a b || (!lt b a && x)) = false ↔ lt a b = false ∧ (lt b a = true ∨ x = false) := by
  cases lt a b <;> cases lt b a <;> simp

theorem heads_eq {lt : α → α → Bool} {a b : α} {x y : Bool}
    (hab : (lt a b || (!lt b a && x)) = false) (hba : (lt b a || (!lt a b && y)) = false) :
    cmp lt a b = .eq ∧ x = false ∧ y = false := by
  rw [heads_eq_false] at hab hba
  exact ⟨cmp_eq_iff.2 ⟨hab.1, hba.1⟩, hab.2.resolve_left (by simp [hba.1]),
    hba.2.resolve_left (by simp [hab.1])⟩

section Heads

variable {lt : α → α → Bool} [StrictWeak lt] {a b c : α}

theorem heads_asymm {x y : Bool} (hxy : x = true → y = false)
    (h : (lt a b || (!lt b a && x)) = true) : (lt b a || (!lt a b && y)) = false := by
  rw [heads_eq_false]
  cases hab : lt a b with
  | true => exact ⟨asymm hab, Or.inl rfl⟩
  | false =>
    rw [hab, Bool.false_or, Bool.and_eq_true, Bool.not_eq_true'] at h
    exact ⟨h.1, Or.inr (hxy h.2)⟩

theorem heads_trans {x y z : Bool} (hxyz : x = false → y = false → z = false)
    (hab : (lt b a || (!lt a b && x)) = false) (hbc : (lt c b || (!lt b c && y)) = false) :
    (lt c a || (!lt a c && z)) = false := by
  rw [heads_eq_false] at hab hbc ⊢
  refine ⟨trans hab.1 hbc.1, ?_⟩
  by_contra hnot
  rw [not_or, Bool.not_eq_true, Bool.not_eq_false] at hnot
  -- of the heads of `a` and `c` none is less, so that of `b` is not less and not greater
  have hle : lt a b = false := trans hbc.1 hnot.1
  have hle' : lt b c = false := trans hnot.1 hab.1
  rw [hxyz (hab.2.resolve_left (by simp [hle])) (hbc.2.resolve_left (by simp [hle']))] at hnot
  cases hnot.2

end Heads

instance instAndThen (lt lt' : α → α → Bool) [StrictWeak lt] [StrictWeak lt'] :
    StrictWeak (andThen lt lt') where
  asymm h := heads_asymm asymm h
  trans hab hbc := heads_trans trans hab hbc

instance instLex (lt : α → α → Bool) [StrictWeak lt] : StrictWeak (lex lt) where
  asymm := by
    intro as bs h
    induction as generalizing bs with
    | nil =>
      cases bs with
      | nil => rfl
      | cons b bs => rfl
    | cons a as ih =>
      cases bs with
      | nil => cases h
      | cons b bs => exact heads_asymm ih h
  trans := by
    intro as bs cs hab hbc
    induction cs generalizing as bs with
    | nil =>
      cases as with
      | nil => rfl
      | cons a as =>
        cases bs with
        | nil => cases hab
        | cons b bs => cases hbc
    | cons c cs ih =>
      cases as with
      | nil => rfl
      | cons a as =>
        cases bs with
        | nil => cases hab
        | cons b bs => exact heads_trans ih hab hbc

/-! What is one for such a comparison. -/

theorem eq_of_ltOf [LinearOrder α] {a b : α} (h : cmp ltOf a b = .eq) : a = b := by
  rw [cmp_eq_iff] at h
  exact le_antisymm (le_of_not_gt (of_decide_eq_false h.2)) (le_of_not_gt (of_decide_eq_false h.1))

theorem cmp_andThen {lt lt' : α → α → Bool} {a b : α} (h : cmp (andThen lt lt') a b = .eq) :
    cmp lt a b = .eq ∧ cmp lt' a b = .eq := by
  rw [cmp_eq_iff] at h
  obtain ⟨heq, htail⟩ := heads_eq h.1 h.2
  exact ⟨heq, cmp_eq_iff.2 htail⟩

theorem eq_of_lex {lt : α → α → Bool} (heq : ∀ {a b}, cmp lt a b = .eq → a = b) {as bs : List α}
    (h : cmp (lex lt) as bs = .eq) : as = bs := by
  rw [cmp_eq_iff] at h
  obtain ⟨hab, hba⟩ := h
  induction as generalizing bs with
  | nil =>
    cases bs with
    | nil => rfl
    | cons b bs => cases hab
  | cons a as ih =>
    cases bs with
    | nil => cases hba
    | cons b bs =>
      obtain ⟨hhead, htail⟩ := heads_eq hab hba
      rw [heq hhead, ih htail.1 htail.2]

/-! The set. -/

abbrev OrderedSet (lt : α → α → Bool) := Std.TreeSet α (cmp lt)

/-- The first entry that is not less than the value. -/
def OrderedSet.lowerBound {lt : α → α → Bool} (s : OrderedSet lt) (k : α) : Option α :=
  s.toList.find? fun e => !lt e k

theorem OrderedSet.mem_of_lowerBound {lt : α → α → Bool} [StrictWeak lt] {s : OrderedSet lt}
    {k e : α} (h : s.lowerBound k = some e) : e ∈ s :=
  Std.TreeSet.mem_of_mem_toList (List.mem_of_find?_eq_some h)

theorem OrderedSet.size_erase_of_mem {lt : α → α → Bool} [StrictWeak lt] {s : OrderedSet lt}
    {e : α} (h : e ∈ s) : (s.erase e).size + 1 = s.size := by
  have hpos : 0 < s.size := by
    by_contra hzero
    have hempty : s.isEmpty = true := by
      rw [Std.TreeSet.isEmpty_eq_size_eq_zero, beq_iff_eq]
      exact Nat.eq_zero_of_not_pos hzero
    exact Std.TreeSet.isEmpty_iff_forall_not_mem.1 hempty e h
  rw [Std.TreeSet.size_erase, if_pos (Std.TreeSet.contains_iff_mem.2 h)]
  exact Nat.sub_add_cancel hpos

end StrictWeak
