import Mathlib.Data.List.Basic

/-! Runs of a deterministic machine. A machine is a function `step : σ → ε → σ`;
a run feeds it a list of events. The rules turn a fact about one step into a fact
about every run, or about a run together with its history. -/

namespace Runs

variable {σ τ ε : Type*}

def run (step : σ → ε → σ) (s : σ) (es : List ε) : σ := es.foldl step s

@[simp] theorem run_nil (step : σ → ε → σ) (s : σ) : run step s [] = s := rfl

@[simp] theorem run_cons (step : σ → ε → σ) (s : σ) (e : ε) (es : List ε) :
    run step s (e :: es) = run step (step s e) es := rfl

theorem run_append (step : σ → ε → σ) (s : σ) (es fs : List ε) :
    run step s (es ++ fs) = run step (run step s es) fs :=
  List.foldl_append

/-- Every step of the run meets `C` in the state in which it is taken. -/
def Meets (step : σ → ε → σ) (C : σ → ε → Prop) : σ → List ε → Prop
  | _, [] => True
  | s, e :: es => C s e ∧ Meets step C (step s e) es

@[simp] theorem meets_nil (step : σ → ε → σ) (C : σ → ε → Prop) (s : σ) :
    Meets step C s [] := trivial

@[simp] theorem meets_cons (step : σ → ε → σ) (C : σ → ε → Prop) (s : σ) (e : ε)
    (es : List ε) : Meets step C s (e :: es) ↔ C s e ∧ Meets step C (step s e) es :=
  Iff.rfl

instance Meets.decidable (step : σ → ε → σ) (C : σ → ε → Prop) [∀ s e, Decidable (C s e)] :
    ∀ s es, Decidable (Meets step C s es)
  | _, [] => isTrue trivial
  | s, e :: es =>
    haveI := Meets.decidable step C (step s e) es
    inferInstanceAs (Decidable (C s e ∧ Meets step C (step s e) es))

theorem meets_append {step : σ → ε → σ} {C : σ → ε → Prop} {s : σ} {es fs : List ε} :
    Meets step C s (es ++ fs) ↔ Meets step C s es ∧ Meets step C (run step s es) fs := by
  induction es generalizing s with
  | nil => simp
  | cons e es ih => simp [ih, and_assoc]

theorem Meets.mono {step : σ → ε → σ} {C D : σ → ε → Prop} (hCD : ∀ s e, C s e → D s e)
    {s : σ} {es : List ε} (h : Meets step C s es) : Meets step D s es := by
  induction es generalizing s with
  | nil => trivial
  | cons e es ih => exact ⟨hCD _ _ h.1, ih h.2⟩

theorem run_invariant {step : σ → ε → σ} {C : σ → ε → Prop} {I : σ → Prop}
    (hstep : ∀ s e, I s → C s e → I (step s e)) {s : σ} {es : List ε}
    (hs : I s) (hes : Meets step C s es) : I (run step s es) := by
  induction es generalizing s with
  | nil => exact hs
  | cons e es ih => exact ih (hstep s e hs hes.1) hes.2

/-- What every step keeps, whatever the step. -/
theorem run_preserves {step : σ → ε → σ} {I : σ → Prop} (hstep : ∀ s e, I s → I (step s e))
    {s : σ} (hs : I s) (es : List ε) : I (run step s es) := by
  induction es generalizing s with
  | nil => exact hs
  | cons e es ih => exact ih (hstep s e hs)

/-- What holds of every step that is taken where the invariant holds. -/
theorem Meets.of_invariant {step : σ → ε → σ} {C D : σ → ε → Prop} {I : σ → Prop}
    (hstep : ∀ s e, I s → C s e → I (step s e)) (hD : ∀ s e, I s → C s e → D s e) {s : σ}
    {es : List ε} (hs : I s) (h : Meets step C s es) : Meets step D s es := by
  induction es generalizing s with
  | nil => trivial
  | cons e es ih => exact ⟨hD s e hs h.1, ih (hstep s e hs h.1) h.2⟩

/-- Two conditions that agree where the invariant holds are met by the same runs. -/
theorem meets_congr {step : σ → ε → σ} {C D : σ → ε → Prop} {I : σ → Prop}
    (hstep : ∀ s e, I s → D s e → I (step s e)) (hCD : ∀ s e, I s → (C s e ↔ D s e)) {s : σ}
    {es : List ε} (hs : I s) : Meets step C s es ↔ Meets step D s es :=
  ⟨Meets.of_invariant (fun s e h hC => hstep s e h ((hCD s e h).mp hC))
      (fun s e h => (hCD s e h).mp) hs,
    Meets.of_invariant hstep (fun s e h => (hCD s e h).mpr) hs⟩

/-- Where a step keeps the invariant just when it meets the condition, so does every state of a
run. -/
theorem forall_prefix_iff_meets {step : σ → ε → σ} {C : σ → ε → Prop} {I : σ → Prop}
    (hstep : ∀ s e, I s → (I (step s e) ↔ C s e)) {s : σ} (es : List ε) (hs : I s) :
    (∀ past, past <+: es → I (run step s past)) ↔ Meets step C s es := by
  induction es generalizing s with
  | nil =>
    refine iff_of_true (fun past hpast => ?_) trivial
    rw [List.prefix_nil.1 hpast]
    exact hs
  | cons e es ih =>
    constructor
    · intro h
      have hnext : I (step s e) := h [e] ⟨es, rfl⟩
      exact ⟨(hstep s e hs).1 hnext,
        (ih hnext).1 fun past hpast => h (e :: past) (List.cons_prefix_cons.2 ⟨rfl, hpast⟩)⟩
    · rintro ⟨hC, hes⟩ past hpast
      rcases List.prefix_cons_iff.1 hpast with rfl | ⟨rest, rfl, hrest⟩
      · exact hs
      · exact (ih ((hstep s e hs).2 hC)).2 hes rest hrest

/-- The invariant may speak of the events that led to the state. -/
theorem run_history {step : σ → ε → σ} {C : σ → ε → Prop} {I : List ε → σ → Prop}
    (hstep : ∀ past s e, I past s → C s e → I (past ++ [e]) (step s e)) {s : σ}
    (past : List ε) {es : List ε} (hs : I past s) (hes : Meets step C s es) :
    I (past ++ es) (run step s es) := by
  induction es generalizing s past with
  | nil => simpa using hs
  | cons e es ih =>
    have h := ih (past ++ [e]) (hstep past s e hs hes.1) hes.2
    simpa only [run_cons, List.append_assoc, List.singleton_append] using h

end Runs
