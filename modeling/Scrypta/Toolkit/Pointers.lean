import Mathlib.Data.Option.Basic
import Mathlib.Order.Basic

/-! Nodes with a pointer to a parent, and a second pointer that skips several ancestors. A walk
that follows the skip pointer wherever it does not lead too far arrives at the same ancestor as
a walk from parent to parent. -/

namespace Pointers

variable {κ : Type*} (parent skip : κ → Option κ)

/-- The ancestor so many generations up. -/
def follow : ℕ → κ → Option κ
  | 0, a => some a
  | k + 1, a => (parent a).bind (follow k)

/-- The walk from a node at height `height` down to the height `target`; `takes` says where it
follows the skip pointer, which leads to the height `jump height`. -/
def walk (jump : ℕ → ℕ) (takes : ℕ → Bool) (target : ℕ) : ℕ → κ → ℕ → Option κ
  | 0, _, _ => none
  | turns + 1, a, height =>
    if height ≤ target then some a
    else if takes height then
      (skip a).bind fun b => walk jump takes target turns b (jump height)
    else (parent a).bind fun b => walk jump takes target turns b (height - 1)

/-- Two pointers go up side by side until they meet or one of them has nowhere to go. -/
def meet [DecidableEq κ] : ℕ → Option κ → Option κ → Option (Option κ × Option κ)
  | 0, _, _ => none
  | turns + 1, pa, pb =>
    match pa, pb with
    | some a, some b => if a = b then some (pa, pb) else meet turns (parent a) (parent b)
    | _, _ => some (pa, pb)

/-- The node has so many generations above it. -/
def Depth : ℕ → κ → Prop
  | 0, a => parent a = none
  | n + 1, a => ∃ b, parent a = some b ∧ Depth n b

variable {parent skip}

@[simp] theorem follow_zero (a : κ) : follow parent 0 a = some a := rfl

theorem follow_succ (k : ℕ) (a : κ) :
    follow parent (k + 1) a = (parent a).bind (follow parent k) := rfl

theorem follow_add (j k : ℕ) (a : κ) :
    follow parent (j + k) a = (follow parent j a).bind (follow parent k) := by
  induction j generalizing a with
  | zero => rw [Nat.zero_add, follow_zero, Option.bind_some]
  | succ j ih =>
    rw [Nat.succ_add, follow_succ, follow_succ, Option.bind_assoc]
    congr 1
    funext b
    exact ih b

theorem follow_congr {parent' : κ → Option κ} (k : ℕ) {a : κ}
    (h : ∀ i b, i < k → follow parent i a = some b → parent' b = parent b) :
    follow parent' k a = follow parent k a := by
  induction k generalizing a with
  | zero => rfl
  | succ k ih =>
    rw [follow_succ, follow_succ, h 0 a (Nat.succ_pos k) rfl]
    cases hp : parent a with
    | none => rfl
    | some p =>
      refine ih fun i b hi hb => h (i + 1) b (Nat.succ_lt_succ hi) ?_
      rw [follow_succ, hp, Option.bind_some, hb]

/-- The skip pointers of a node and of its ancestors lead where they should. -/
def Skips (parent skip : κ → Option κ) (jump : ℕ → ℕ) (a : κ) (height : ℕ) : Prop :=
  ∀ i b, i < height → follow parent i a = some b →
    skip b = follow parent (height - i - jump (height - i)) b

theorem Skips.up {jump : ℕ → ℕ} {a b : κ} {height k : ℕ} (h : Skips parent skip jump a height)
    (hk : k ≤ height) (hb : follow parent k a = some b) :
    Skips parent skip jump b (height - k) := by
  intro i c hi hc
  have hac : follow parent (k + i) a = some c := by
    rw [follow_add, hb, Option.bind_some, hc]
  have hskip := h (k + i) c (by omega) hac
  rwa [show height - (k + i) = height - k - i by omega] at hskip

theorem walk_eq {jump : ℕ → ℕ} {takes : ℕ → Bool} {target : ℕ}
    (hjump : ∀ h, target < h → takes h = true → target ≤ jump h ∧ jump h < h) {turns : ℕ} {a : κ}
    {height : ℕ} (hskips : Skips parent skip jump a height) (hturns : height < turns) :
    walk parent skip jump takes target turns a height = follow parent (height - target) a := by
  induction turns generalizing a height with
  | zero => exact absurd hturns (Nat.not_lt_zero _)
  | succ turns ih =>
    rw [walk]
    split_ifs with hle htakes
    · rw [Nat.sub_eq_zero_of_le hle, follow_zero]
    · obtain ⟨hlow, hhigh⟩ := hjump height (by omega) htakes
      have hskip : skip a = follow parent (height - jump height) a :=
        hskips 0 a (by omega) rfl
      rw [hskip, show height - target = (height - jump height) + (jump height - target) by omega,
        follow_add]
      cases hb : follow parent (height - jump height) a with
      | none => rfl
      | some b =>
        have hup := hskips.up (by omega) hb
        rw [show height - (height - jump height) = jump height by omega] at hup
        exact ih hup (by omega)
    · rw [show height - target = (height - 1 - target) + 1 by omega, follow_succ]
      cases hb : parent a with
      | none => rfl
      | some b =>
        have hup := hskips.up (show 1 ≤ height by omega)
          (show follow parent 1 a = some b by rw [follow_succ, hb]; rfl)
        exact ih hup (by omega)

theorem Depth.follow_isSome {n k : ℕ} {a : κ} (h : Depth parent n a) (hk : k ≤ n) :
    ∃ b, follow parent k a = some b := by
  induction k generalizing n a with
  | zero => exact ⟨a, rfl⟩
  | succ k ih =>
    obtain ⟨n, rfl⟩ : ∃ n', n = n' + 1 := ⟨n - 1, by omega⟩
    obtain ⟨p, hp, hdeep⟩ := h
    rw [follow_succ, hp, Option.bind_some]
    exact ih hdeep (by omega)

/-- Two pointers of one depth meet at the first ancestor that is the same, or both leave the top. -/
theorem meet_eq [DecidableEq κ] {n turns : ℕ} {a b : κ} (ha : Depth parent n a)
    (hb : Depth parent n b) (hturns : n + 1 < turns) :
    ∃ k c, meet parent turns (some a) (some b) = some (c, c) ∧ follow parent k a = c ∧
      follow parent k b = c ∧ ∀ j < k, follow parent j a ≠ follow parent j b := by
  induction n generalizing a b turns with
  | zero =>
    obtain ⟨turns, rfl⟩ : ∃ t, turns = t + 2 := ⟨turns - 2, by omega⟩
    rw [meet]
    split_ifs with heq
    · exact ⟨0, some a, by rw [heq], rfl, congrArg some heq.symm, nofun⟩
    · refine ⟨1, none, ?_, ?_, ?_, fun j hj h => ?_⟩
      · rw [show parent a = none from ha, show parent b = none from hb]
        rfl
      · rw [follow_succ, show parent a = none from ha, Option.bind_none]
      · rw [follow_succ, show parent b = none from hb, Option.bind_none]
      · obtain rfl : j = 0 := by omega
        exact heq (Option.some.inj h)
  | succ n ih =>
    obtain ⟨turns, rfl⟩ : ∃ t, turns = t + 1 := ⟨turns - 1, by omega⟩
    obtain ⟨a', ha', hdeepA⟩ := ha
    obtain ⟨b', hb', hdeepB⟩ := hb
    rw [meet]
    split_ifs with heq
    · exact ⟨0, some a, by rw [heq], rfl, congrArg some heq.symm, nofun⟩
    · obtain ⟨k, c, hmeet, hka, hkb, hfirst⟩ := ih hdeepA hdeepB (by omega : n + 1 < turns)
      refine ⟨k + 1, c, ?_, ?_, ?_, fun j hj h => ?_⟩
      · rw [ha', hb', hmeet]
      · rw [follow_succ, ha', Option.bind_some, hka]
      · rw [follow_succ, hb', Option.bind_some, hkb]
      · cases j with
        | zero => exact heq (Option.some.inj h)
        | succ j =>
          rw [follow_succ, follow_succ, ha', hb'] at h
          exact hfirst j (by omega) h

end Pointers
