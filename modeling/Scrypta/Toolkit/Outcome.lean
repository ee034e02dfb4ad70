import Mathlib.Tactic.TypeStar

/-! Postconditions of programs that may fail: what holds of the result, and of the failure. -/

namespace Outcome

variable {ε α β : Type*} {Q P : α → Prop} {R : β → Prop} {E F : ε → Prop}

def Ensures (x : Except ε α) (Q : α → Prop) (E : ε → Prop) : Prop :=
  (∀ a, x = .ok a → Q a) ∧ ∀ e, x = .error e → E e

theorem Ensures.of_ok {x : Except ε α} (hx : Ensures x Q E) {a : α} (h : x = .ok a) : Q a :=
  hx.1 a h

theorem Ensures.of_error {x : Except ε α} (hx : Ensures x Q E) {e : ε} (h : x = .error e) :
    E e :=
  hx.2 e h

theorem ensures_ok {a : α} (h : Q a) : Ensures (.ok a : Except ε α) Q E :=
  ⟨fun _ heq => Except.ok.inj heq ▸ h, fun _ heq => nomatch heq⟩

theorem ensures_error {e : ε} (h : E e) : Ensures (.error e : Except ε α) Q E :=
  ⟨fun _ heq => (nomatch heq), fun _ heq => Except.error.inj heq ▸ h⟩

theorem Ensures.bind {x : Except ε α} {f : α → Except ε β} (hx : Ensures x Q E)
    (hf : ∀ a, Q a → Ensures (f a) R E) : Ensures (x.bind f) R E := by
  cases x with
  | ok a => exact hf a (hx.of_ok rfl)
  | error e => exact ensures_error (hx.of_error rfl)

theorem Ensures.monadBind {ε α β : Type} {Q : α → Prop} {R : β → Prop} {E : ε → Prop}
    {x : Except ε α} {f : α → Except ε β} (hx : Ensures x Q E)
    (hf : ∀ a, Q a → Ensures (f a) R E) : Ensures (x >>= f) R E := hx.bind hf

theorem Ensures.map {x : Except ε α} {f : α → β} (hx : Ensures x Q E)
    (hf : ∀ a, Q a → R (f a)) : Ensures (x.map f) R E := by
  cases x with
  | ok a => exact ensures_ok (hf a (hx.of_ok rfl))
  | error e => exact ensures_error (hx.of_error rfl)

theorem Ensures.mono {x : Except ε α} (hx : Ensures x Q E) (hQ : ∀ a, Q a → P a)
    (hE : ∀ e, E e → F e) : Ensures x P F :=
  ⟨fun a heq => hQ a (hx.of_ok heq), fun e heq => hE e (hx.of_error heq)⟩

theorem bind_eq_ok {ε α β : Type} {x : Except ε α} {f : α → Except ε β} {b : β} :
    (x >>= f) = .ok b ↔ ∃ a, x = .ok a ∧ f a = .ok b := by
  cases x with
  | error r => simp [Bind.bind, Except.bind]
  | ok a => simp [Bind.bind, Except.bind]

theorem mapError_eq_ok {ε ε' α : Type} {x : Except ε α} {f : ε → ε'} {a : α} :
    x.mapError f = .ok a ↔ x = .ok a := by
  cases x with
  | error r => exact iff_of_false (fun h => by cases h) fun h => by cases h
  | ok b => exact ⟨fun h => congrArg _ (Except.ok.inj h), fun h => congrArg _ (Except.ok.inj h)⟩

end Outcome
