import Mathlib.Algebra.BigOperators.Group.Finset.Basic
import Mathlib.Algebra.BigOperators.Group.Finset.Piecewise
import Mathlib.Algebra.Order.BigOperators.Group.Finset
import Mathlib.Data.Fintype.Option
import Mathlib.Tactic.Ring
import Scrypta.Toolkit.Runs

/-! The queue that the script checks of a block go through. Worker threads take batches of checks
from it; the master adds checks and then joins the workers until all of them are done. Each
critical section is one step, and so is each check, which runs outside the lock. -/

namespace Scrypta.CheckQueue

open Runs

/-- Where a thread of `Loop` is when it does not hold the lock. -/
inductive Pc (α : Type*)
  | outside
  | waiting
  | working (vChecks : List α) (nNow : ℕ) (fOk : Bool)

namespace Pc

variable {α : Type*}

def vChecks : Pc α → List α
  | working vChecks _ _ => vChecks
  | _ => []

/-- The checks that the thread has taken and not reported. -/
def nNow : Pc α → ℕ
  | working _ nNow _ => nNow
  | _ => 0

def fOk : Pc α → Bool
  | working _ _ fOk => fOk
  | _ => true

def works : Pc α → ℕ
  | working .. => 1
  | _ => 0

end Pc

/-- A finished round: the checks that the master added, what became of each of them in the order
in which it happened (`true` for a check that was executed, `false` for one that was skipped),
and what `Wait` returned. -/
structure Round (α : Type*) where
  added : List α
  log : List (α × Bool)
  verdict : Bool

/-- The queue and its threads. `added`, `log` and `rounds` are history, which the code does not
keep. -/
structure State (ω α : Type*) where
  queue : List α := []
  nIdle : ℤ := 0
  nTotal : ℤ := 0
  fAllOk : Bool := true
  nTodo : ℕ := 0
  pcs : ω → Pc α := fun _ => .outside
  added : List α := []
  log : List (α × Bool) := []
  rounds : List (Round α) := []

/-- `nTodo` and the sizes of batches are 32-bit unsigned integers. -/
def uintRange : ℕ := 2 ^ 32

/-- The master is the thread `none`. -/
inductive Event (ω α : Type*)
  | add (vChecks : List α)
  | lock (t : Option ω)
  | execute (t : Option ω)

section Step

variable {ω α : Type*} [DecidableEq ω]

def State.setPc (s : State (Option ω) α) (t : Option ω) (pc : Pc α) : State (Option ω) α :=
  { s with pcs := Function.update s.pcs t pc }

def State.isIdle (s : State (Option ω) α) : Bool :=
  decide (s.nTotal = s.nIdle) && decide (s.nTodo = 0) && s.fAllOk

def batchSize (nBatchSize : ℕ) (s : State (Option ω) α) : ℕ :=
  max 1 (min nBatchSize (s.queue.length % uintRange / (s.nTotal + s.nIdle + 1).toNat))

/-- The first part of the critical section: a thread that comes back reports its batch, one that
comes in is counted, and one that was woken up is idle no more. -/
def cleanUp (t : Option ω) (s : State (Option ω) α) : State (Option ω) α :=
  match s.pcs t with
  | .outside => { s with nTotal := s.nTotal + 1 }
  | .waiting => { s.setPc t .outside with nIdle := s.nIdle - 1 }
  | .working _ nNow fOk =>
    { s.setPc t .outside with
      fAllOk := s.fAllOk && fOk
      nTodo := (s.nTodo + (uintRange - nNow)) % uintRange }

/-- The master returns, with the status reset for new work later. -/
def State.leave (s : State (Option ω) α) : State (Option ω) α :=
  { s with
    nTotal := s.nTotal - 1
    fAllOk := true
    added := []
    log := []
    rounds := s.rounds ++ [⟨s.added, s.log, s.fAllOk⟩] }

def State.wait (t : Option ω) (s : State (Option ω) α) : State (Option ω) α :=
  { s.setPc t .waiting with nIdle := s.nIdle + 1 }

/-- A batch comes from the back of the queue. -/
def State.takeBatch (nBatchSize : ℕ) (t : Option ω) (s : State (Option ω) α) :
    State (Option ω) α :=
  let nNow := batchSize nBatchSize s
  let nLeft := s.queue.length - nNow
  { s.setPc t (.working (s.queue.drop nLeft).reverse nNow s.fAllOk) with
    queue := s.queue.take nLeft }

/-- The rest of the critical section: the master leaves when nothing is left to do, a thread that
finds the queue empty waits, and otherwise it takes a batch. -/
def takeWork (nBatchSize : ℕ) (t : Option ω) (s : State (Option ω) α) : State (Option ω) α :=
  if s.queue = [] then
    if t = none ∧ s.nTodo = 0 then s.leave else s.wait t
  else s.takeBatch nBatchSize t

/-- The master adds checks before it waits. A thread comes back to the lock when its batch is
done. -/
def step (check : α → Bool) (nBatchSize : ℕ) (s : State (Option ω) α) :
    Event ω α → State (Option ω) α
  | .add vChecks =>
    match s.pcs none with
    | .outside =>
      { s with
        queue := s.queue ++ vChecks
        nTodo := (s.nTodo + vChecks.length) % uintRange
        added := s.added ++ vChecks }
    | _ => s
  | .lock t =>
    if (s.pcs t).vChecks = [] then takeWork nBatchSize t (cleanUp t s) else s
  | .execute t =>
    match s.pcs t with
    | .working (c :: vChecks) nNow fOk =>
      { s.setPc t (.working vChecks nNow (fOk && check c)) with
        log := s.log ++ [(c, fOk)] }
    | _ => s

end Step

section Sums

variable {ω M : Type*} [Fintype ω] [DecidableEq ω] [AddCommMonoid M]

/-- What a sum over the threads becomes when one of them moves on. -/
theorem sum_setPc {α : Type*} (f : Pc α → M) (pcs : ω → Pc α) (t : ω) (pc : Pc α) :
    ∑ x, f (Function.update pcs t pc x) + f (pcs t) = ∑ x, f (pcs x) + f pc := by
  have hf : (fun x => f (Function.update pcs t pc x)) =
      Function.update (fun x => f (pcs x)) t (f pc) := by
    funext x
    by_cases hx : x = t
    · subst hx; simp
    · simp [hx]
  rw [hf, Finset.sum_update_of_mem (Finset.mem_univ t),
    ← Finset.add_sum_erase Finset.univ (fun x => f (pcs x)) (Finset.mem_univ t),
    Finset.sdiff_singleton_eq_erase]
  ac_rfl

end Sums

section Invariant

variable {ω α : Type*} [Fintype ω]

/-- The number of the checks that threads have taken and not reported. -/
def State.unreported (s : State (Option ω) α) : ℕ := ∑ t, (s.pcs t).nNow

/-- The checks that threads have taken and not gone through. -/
def State.taken (s : State (Option ω) α) : Multiset α := ∑ t, ((s.pcs t).vChecks : Multiset α)

def State.workers (s : State (Option ω) α) : ℕ := ∑ t, (s.pcs t).works

/-- One of the checks of the log was executed and failed. -/
def Failed (check : α → Bool) (log : List (α × Bool)) : Prop :=
  ∃ c, (c, true) ∈ log ∧ check c = false

/-- Each check that was skipped comes after one that failed. -/
def SkipsJustified (check : α → Bool) (log : List (α × Bool)) : Prop :=
  ∀ before c after, log = before ++ (c, false) :: after → Failed check before

/-- Every check that the master added was executed, or skipped after a failure, and the verdict
is the conjunction of all of them. -/
structure Round.Sound (check : α → Bool) (r : Round α) : Prop where
  all : (r.log.map Prod.fst).Perm r.added
  skips : SkipsJustified check r.log
  verdict : r.verdict = true ↔ ∀ c ∈ r.added, check c = true

def Pc.Batch (nBatchSize : ℕ) : Pc α → Prop
  | .working _ nNow _ => 1 ≤ nNow ∧ nNow ≤ max 1 nBatchSize ∧ nNow < uintRange
  | _ => True

/-- The invariant of the queue. `inside` is the number of threads in the critical section. -/
structure Inv (check : α → Bool) (nBatchSize : ℕ) (inside : ℤ) (s : State (Option ω) α) :
    Prop where
  batches : ∀ t, (s.pcs t).Batch nBatchSize
  todo : s.nTodo = (s.queue.length + s.unreported) % uintRange
  held : s.queue.length + s.unreported ≤ s.added.length
  checks : (s.added : Multiset α) =
    (s.queue : Multiset α) + s.taken + ((s.log.map Prod.fst : List α) : Multiset α)
  failed : Failed check s.log ↔ s.fAllOk = false ∨ ∃ t, (s.pcs t).fOk = false
  skips : SkipsJustified check s.log
  threads : s.nTotal = s.nIdle + s.workers + inside
  rounds : ∀ r ∈ s.rounds, r.Sound check

theorem Pc.Batch.nNow_le {nBatchSize : ℕ} {pc : Pc α} (h : pc.Batch nBatchSize) :
    pc.nNow ≤ max 1 nBatchSize := by
  cases pc with
  | outside => exact Nat.zero_le _
  | waiting => exact Nat.zero_le _
  | working vChecks nNow fOk => exact h.2.1

/-- No batch is larger than the batch size. -/
theorem Inv.unreported_le {check : α → Bool} {nBatchSize : ℕ} {inside : ℤ}
    {s : State (Option ω) α} (h : Inv check nBatchSize inside s) :
    s.unreported ≤ Fintype.card (Option ω) * max 1 nBatchSize := by
  have hsum := Finset.sum_le_card_nsmul Finset.univ (fun t => (s.pcs t).nNow)
    (max 1 nBatchSize) fun t _ => (h.batches t).nNow_le
  rwa [nsmul_eq_mul, Finset.card_univ] at hsum

end Invariant

section Rules

variable {ω α : Type*} {check : α → Bool} {nBatchSize : ℕ} {s : State (Option ω) α}

theorem failed_append (log : List (α × Bool)) (c : α) (b : Bool) :
    Failed check (log ++ [(c, b)]) ↔ Failed check log ∨ (b = true ∧ check c = false) := by
  constructor
  · intro ⟨d, hd, hf⟩
    rw [List.mem_append, List.mem_singleton, Prod.mk.injEq] at hd
    cases hd with
    | inl hd => exact Or.inl ⟨d, hd, hf⟩
    | inr hd => exact Or.inr ⟨hd.2.symm, hd.1 ▸ hf⟩
  · intro h
    cases h with
    | inl h =>
      obtain ⟨d, hd, hf⟩ := h
      exact ⟨d, List.mem_append_left _ hd, hf⟩
    | inr h => exact ⟨c, by simp [h.1], h.2⟩

theorem SkipsJustified.append {log : List (α × Bool)} (h : SkipsJustified check log) (c : α)
    (b : Bool) (hb : b = false → Failed check log) : SkipsJustified check (log ++ [(c, b)]) := by
  intro before d after heq
  -- the skipped check is the new one, or one of the old log
  rcases List.append_eq_append_iff.1 heq with ⟨mid, hbefore, hmid⟩ | ⟨mid, hlog, hmid⟩
  · cases mid with
    | nil =>
      rw [List.append_nil] at hbefore
      have hcd : (c, b) = (d, false) := List.head_eq_of_cons_eq hmid
      rw [hbefore]
      exact hb (congrArg Prod.snd hcd)
    | cons m mid =>
      have hlen := congrArg List.length hmid
      simp at hlen
  · cases mid with
    | nil =>
      rw [List.append_nil] at hlog
      have hcd : (d, false) = (c, b) := List.head_eq_of_cons_eq hmid
      rw [← hlog]
      exact hb (congrArg Prod.snd hcd).symm
    | cons m mid =>
      have hm : (d, false) = m := List.head_eq_of_cons_eq hmid
      subst hm
      exact h before d mid hlog

theorem Pc.Batch.idle {pc : Pc α} (h : pc.Batch nBatchSize) (hn : pc.nNow = 0) :
    pc.vChecks = [] ∧ pc.fOk = true ∧ pc.works = 0 := by
  cases pc with
  | outside => exact ⟨rfl, rfl, rfl⟩
  | waiting => exact ⟨rfl, rfl, rfl⟩
  | working vChecks nNow fOk =>
    have h1 : 1 ≤ nNow := h.1
    change nNow = 0 at hn
    omega

theorem batchSize_le (nBatchSize : ℕ) (hq : s.queue ≠ []) :
    batchSize nBatchSize s ≤ s.queue.length := by
  have hpos := List.length_pos_of_ne_nil hq
  have hmod : s.queue.length % uintRange ≤ s.queue.length := Nat.mod_le _ _
  have hdiv := Nat.div_le_self (s.queue.length % uintRange) (s.nTotal + s.nIdle + 1).toNat
  unfold batchSize
  omega

theorem batchSize_lt (nBatchSize : ℕ) (s : State (Option ω) α) :
    batchSize nBatchSize s < uintRange := by
  have hmod : s.queue.length % uintRange < uintRange := Nat.mod_lt _ (by decide)
  have hdiv := Nat.div_le_self (s.queue.length % uintRange) (s.nTotal + s.nIdle + 1).toNat
  have hone : 1 < uintRange := by decide
  unfold batchSize
  omega

section Reports

variable [Fintype ω]

/-- When no check is left, every thread is idle. -/
theorem idle_of_unreported (h : ∀ t, (s.pcs t).Batch nBatchSize) (hs : s.unreported = 0)
    (t : Option ω) : (s.pcs t).vChecks = [] ∧ (s.pcs t).fOk = true ∧ (s.pcs t).works = 0 := by
  have hall := Finset.sum_eq_zero_iff.1 hs
  exact (h t).idle (hall t (Finset.mem_univ t))

theorem Inv.unreported_eq_zero {inside : ℤ} (h : Inv check nBatchSize inside s)
    (hsmall : s.unreported < uintRange) (hq : s.queue = []) (htodo : s.nTodo = 0) :
    s.unreported = 0 := by
  have heq := h.todo
  rw [hq, htodo, List.length_nil, Nat.zero_add, Nat.mod_eq_of_lt hsmall] at heq
  exact heq.symm

theorem taken_of_unreported (h : ∀ t, (s.pcs t).Batch nBatchSize) (hs : s.unreported = 0) :
    s.taken = 0 := by
  apply Finset.sum_eq_zero
  intro t _
  rw [(idle_of_unreported h hs t).1]
  rfl

theorem workers_of_unreported (h : ∀ t, (s.pcs t).Batch nBatchSize) (hs : s.unreported = 0) :
    s.workers = 0 :=
  Finset.sum_eq_zero fun t _ => (idle_of_unreported h hs t).2.2

theorem Inv.failed_iff {inside : ℤ} (h : Inv check nBatchSize inside s) (hs : s.unreported = 0) :
    Failed check s.log ↔ s.fAllOk = false := by
  have hidle := idle_of_unreported h.batches hs
  rw [h.failed]
  apply or_iff_left
  intro ⟨t, ht⟩
  rw [(hidle t).2.1] at ht
  exact Bool.noConfusion ht

/-- What the master returns when the queue is empty and every batch is reported. -/
theorem Inv.round_sound {inside : ℤ} (h : Inv check nBatchSize inside s) (hq : s.queue = [])
    (hs : s.unreported = 0) : Round.Sound check ⟨s.added, s.log, s.fAllOk⟩ := by
  have hfailed := h.failed_iff hs
  have hperm : (s.log.map Prod.fst).Perm s.added := by
    have hchecks := h.checks
    rw [hq, taken_of_unreported h.batches hs] at hchecks
    apply Multiset.coe_eq_coe.1
    rw [hchecks, add_zero]
    exact (zero_add _).symm
  refine ⟨hperm, h.skips, ?_⟩
  change s.fAllOk = true ↔ _
  constructor
  · intro hok c hc
    have hnone : ¬ Failed check s.log := by
      rw [hfailed, hok]
      exact Bool.noConfusion
    obtain ⟨⟨d, executed⟩, hd, hdc⟩ := List.mem_map.1 (hperm.mem_iff.2 hc)
    change d = c at hdc
    subst hdc
    cases executed with
    | true =>
      -- it was executed, and nothing failed
      by_contra hcheck
      exact hnone ⟨d, hd, Bool.eq_false_iff.2 hcheck⟩
    | false =>
      -- a check is skipped after a failure only
      obtain ⟨before, after, hlog⟩ := List.append_of_mem hd
      obtain ⟨e, he, hef⟩ := h.skips before d after hlog
      exact (hnone ⟨e, hlog ▸ List.mem_append_left _ he, hef⟩).elim
  · intro hall
    by_contra hok
    obtain ⟨c, hc, hcf⟩ := hfailed.2 (Bool.eq_false_iff.2 hok)
    have hcheck := hall c (hperm.mem_iff.1 (List.mem_map.2 ⟨(c, true), hc, rfl⟩))
    rw [hcf] at hcheck
    exact Bool.noConfusion hcheck

theorem inv_leave (h : Inv check nBatchSize 1 s) (hq : s.queue = []) (hs : s.unreported = 0) :
    Inv check nBatchSize 0 s.leave where
  batches := h.batches
  todo := h.todo
  held := by
    change s.queue.length + s.unreported ≤ 0
    rw [hq, hs]
    exact le_refl 0
  checks := by
    change (0 : Multiset α) = (s.queue : Multiset α) + s.taken + 0
    rw [hq, taken_of_unreported h.batches hs]
    rfl
  failed := by
    have hidle := idle_of_unreported h.batches hs
    constructor
    · intro ⟨c, hc, _⟩
      exact absurd hc List.not_mem_nil
    · intro hf
      cases hf with
      | inl hf => exact Bool.noConfusion hf
      | inr hf =>
        obtain ⟨x, hx⟩ := hf
        exact Bool.noConfusion ((hidle x).2.1.symm.trans hx)
  skips := by
    intro before c after hlog
    exact absurd (congrArg List.length hlog) (by simp [State.leave])
  threads := by
    have hthreads := h.threads
    change s.nTotal - 1 = s.nIdle + s.workers + 0
    omega
  rounds := by
    intro r hr
    change r ∈ s.rounds ++ [_] at hr
    rw [List.mem_append, List.mem_singleton] at hr
    cases hr with
    | inl hr => exact h.rounds r hr
    | inr hr => exact hr ▸ h.round_sound hq hs

theorem inv_init : Inv check nBatchSize 0 ({} : State (Option ω) α) where
  batches _ := trivial
  todo := by simp [State.unreported, Pc.nNow]
  held := by simp [State.unreported, Pc.nNow]
  checks := by simp [State.taken, Pc.vChecks]
  failed := by simp [Failed, Pc.fOk]
  skips before c after hlog := absurd (congrArg List.length hlog) (by simp)
  threads := by simp [State.workers, Pc.works]
  rounds r hr := absurd hr List.not_mem_nil

/-- The checks taken and unreported fit into `nTodo`: because batches are small and threads few,
or because the round is. -/
def Fits (nBatchSize : ℕ) (s : State (Option ω) α) (e : Event ω α) : Prop :=
  Fintype.card (Option ω) * max 1 nBatchSize < uintRange ∨
    ∀ vChecks, e = .add vChecks → s.added.length + vChecks.length < uintRange

/-- What `Fits` leaves true of a state. -/
def Small (nBatchSize : ℕ) (s : State (Option ω) α) : Prop :=
  Fintype.card (Option ω) * max 1 nBatchSize < uintRange ∨ s.added.length < uintRange

theorem Small.unreported_lt {inside : ℤ} (hsmall : Small nBatchSize s)
    (h : Inv check nBatchSize inside s) : s.unreported < uintRange := by
  have hheld := h.held
  have hle := h.unreported_le
  cases hsmall with
  | inl hs => omega
  | inr hs => omega

theorem Inv.isIdle (h : Inv check nBatchSize 0 s) (hs : s.unreported = 0) (htodo : s.nTodo = 0)
    (hok : s.fAllOk = true) : s.isIdle = true := by
  have hthreads := h.threads
  have hworkers := workers_of_unreported h.batches hs
  have htotal : s.nTotal = s.nIdle := by omega
  simp [State.isIdle, htotal, htodo, hok]

end Reports

variable [DecidableEq ω]

theorem added_cleanUp (t : Option ω) (s : State (Option ω) α) :
    (cleanUp t s).added = s.added := by
  unfold cleanUp
  split <;> rfl

theorem rounds_cleanUp (t : Option ω) (s : State (Option ω) α) :
    (cleanUp t s).rounds = s.rounds := by
  unfold cleanUp
  split <;> rfl

theorem added_takeWork {t : Option ω} (hs : s.added.length < uintRange) :
    (takeWork nBatchSize t s).added.length < uintRange := by
  unfold takeWork
  split
  · split
    · exact (by decide : 0 < uintRange)
    · exact hs
  · exact hs

/-- A round ends in the master's critical section only. -/
theorem rounds_step {e : Event ω α}
    (he : (step check nBatchSize s e).rounds ≠ s.rounds) :
    ∃ s' : State (Option ω) α, s'.queue = [] ∧ s'.nTodo = 0 ∧
      step check nBatchSize s e = s'.leave := by
  cases e with
  | add vChecks =>
    simp only [step] at he
    split at he <;> exact absurd rfl he
  | execute t =>
    simp only [step] at he
    split at he <;> exact absurd rfl he
  | lock t =>
    simp only [step] at he ⊢
    split at he
    · rename_i hdone
      rw [if_pos hdone]
      unfold takeWork at he ⊢
      split at he
      · rename_i hq
        split at he
        · rename_i hr
          rw [if_pos hq, if_pos hr]
          exact ⟨cleanUp t s, hq, hr.2, rfl⟩
        · exact absurd (rounds_cleanUp t s) he
      · exact absurd (rounds_cleanUp t s) he
    · exact absurd rfl he

theorem exists_fOk_update (pcs : Option ω → Pc α) (t : Option ω) (pc : Pc α) :
    (∃ x, (Function.update pcs t pc x).fOk = false) ↔
      pc.fOk = false ∨ ∃ x, x ≠ t ∧ (pcs x).fOk = false := by
  constructor
  · intro ⟨x, hx⟩
    by_cases hxt : x = t
    · subst hxt
      exact Or.inl (by simpa using hx)
    · exact Or.inr ⟨x, hxt, by simpa [hxt] using hx⟩
  · intro h
    cases h with
    | inl h => exact ⟨t, by simpa using h⟩
    | inr h =>
      obtain ⟨x, hxt, hx⟩ := h
      exact ⟨x, by simpa [hxt] using hx⟩

theorem exists_fOk (pcs : Option ω → Pc α) (t : Option ω) :
    (∃ x, (pcs x).fOk = false) ↔
      (pcs t).fOk = false ∨ ∃ x, x ≠ t ∧ (pcs x).fOk = false := by
  have h := exists_fOk_update pcs t (pcs t)
  rwa [Function.update_eq_self] at h

theorem batches_setPc (h : ∀ x, (s.pcs x).Batch nBatchSize) (t : Option ω) {pc : Pc α}
    (hpc : pc.Batch nBatchSize) (x : Option ω) :
    ((s.setPc t pc).pcs x).Batch nBatchSize := by
  change (Function.update s.pcs t pc x).Batch nBatchSize
  by_cases hx : x = t
  · subst hx; simpa using hpc
  · simpa [hx] using h x

variable [Fintype ω]

theorem unreported_setPc (s : State (Option ω) α) (t : Option ω) (pc : Pc α) :
    (s.setPc t pc).unreported + (s.pcs t).nNow = s.unreported + pc.nNow :=
  sum_setPc Pc.nNow s.pcs t pc

theorem taken_setPc (s : State (Option ω) α) (t : Option ω) (pc : Pc α) :
    (s.setPc t pc).taken + ((s.pcs t).vChecks : Multiset α) = s.taken + pc.vChecks :=
  sum_setPc (fun pc : Pc α => (pc.vChecks : Multiset α)) s.pcs t pc

theorem workers_setPc (s : State (Option ω) α) (t : Option ω) (pc : Pc α) :
    (s.setPc t pc).workers + (s.pcs t).works = s.workers + pc.works :=
  sum_setPc Pc.works s.pcs t pc

theorem inv_add (h : Inv check nBatchSize 0 s) (vChecks : List α) :
    Inv check nBatchSize 0 (step check nBatchSize s (.add vChecks)) := by
  simp only [step]
  split
  · exact
      { batches := h.batches
        todo := by
          change (s.nTodo + vChecks.length) % uintRange =
            ((s.queue ++ vChecks).length + s.unreported) % uintRange
          rw [h.todo, List.length_append, Nat.mod_add_mod]
          congr 1
          omega
        held := by
          change (s.queue ++ vChecks).length + s.unreported ≤ (s.added ++ vChecks).length
          have hheld := h.held
          rw [List.length_append, List.length_append]
          omega
        checks := by
          change ((s.added ++ vChecks : List α) : Multiset α) =
            ((s.queue ++ vChecks : List α) : Multiset α) + s.taken + _
          rw [← Multiset.coe_add, ← Multiset.coe_add, h.checks]
          ac_rfl
        failed := h.failed
        skips := h.skips
        threads := h.threads
        rounds := h.rounds }
  · exact h

theorem inv_execute (h : Inv check nBatchSize 0 s) (t : Option ω) :
    Inv check nBatchSize 0 (step check nBatchSize s (.execute t)) := by
  simp only [step]
  split
  · rename_i c vChecks nNow fOk hpc
    let pc : Pc α := .working vChecks nNow (fOk && check c)
    have hold := h.batches t
    have hunreported := unreported_setPc s t pc
    have htaken := taken_setPc s t pc
    have hworkers := workers_setPc s t pc
    rw [hpc] at hold hunreported htaken hworkers
    have hfailed : Failed check s.log ↔
        s.fAllOk = false ∨ fOk = false ∨ ∃ x, x ≠ t ∧ (s.pcs x).fOk = false := by
      rw [h.failed, exists_fOk s.pcs t, hpc]
      rfl
    exact
      { batches := batches_setPc h.batches t hold
        todo := by
          have heq : (s.setPc t pc).unreported = s.unreported := Nat.add_right_cancel hunreported
          exact heq ▸ h.todo
        held := by
          have heq : (s.setPc t pc).unreported = s.unreported := Nat.add_right_cancel hunreported
          exact heq ▸ h.held
        checks := by
          change (s.added : Multiset α) = (s.queue : Multiset α) + (s.setPc t pc).taken +
            (((s.log ++ [(c, fOk)]).map Prod.fst : List α) : Multiset α)
          have htaken' : s.taken = (s.setPc t pc).taken + {c} := by
            apply add_right_cancel (b := (vChecks : Multiset α))
            rw [add_assoc]
            exact htaken.symm
          rw [h.checks, htaken', List.map_append, ← Multiset.coe_add]
          change _ = _ + (_ + ({c} : Multiset α))
          ac_rfl
        failed := by
          change Failed check (s.log ++ [(c, fOk)]) ↔ s.fAllOk = false ∨
            ∃ x, (Function.update s.pcs t pc x).fOk = false
          rw [failed_append, exists_fOk_update, hfailed]
          change _ ↔ s.fAllOk = false ∨ (fOk && check c) = false ∨ _
          cases fOk <;> cases check c <;> simp [or_comm]
        skips := by
          apply h.skips.append
          intro hfOk
          exact hfailed.2 (Or.inr (Or.inl hfOk))
        threads := by
          have heq : (s.setPc t pc).workers = s.workers := Nat.add_right_cancel hworkers
          exact heq ▸ h.threads
        rounds := h.rounds }
  · exact h

theorem inv_cleanUp (h : Inv check nBatchSize 0 s) (t : Option ω)
    (hdone : (s.pcs t).vChecks = []) :
    Inv check nBatchSize 1 (cleanUp t s) ∧ (cleanUp t s).pcs t = .outside := by
  have hunreported := unreported_setPc s t .outside
  have htaken := taken_setPc s t .outside
  have hworkers := workers_setPc s t .outside
  have hbatches : ∀ x, ((s.setPc t .outside).pcs x).Batch nBatchSize :=
    batches_setPc h.batches t trivial
  have hfailed := h.failed
  have htodo := h.todo
  have hheld := h.held
  have hthreads := h.threads
  have hout : (s.setPc t .outside).pcs t = .outside := Function.update_self _ _ _
  rw [exists_fOk s.pcs t] at hfailed
  have hnewFailed : (∃ x, ((s.setPc t .outside).pcs x).fOk = false) ↔
      ∃ x, x ≠ t ∧ (s.pcs x).fOk = false := by
    have hupdate := exists_fOk_update s.pcs t .outside
    exact hupdate.trans (or_iff_right nofun)
  rw [hdone] at htaken
  have hsame : (s.setPc t .outside).taken = s.taken := add_right_cancel htaken
  unfold cleanUp
  split
  · rename_i hpc
    rw [hpc] at hfailed
    refine ⟨{ h with failed := ?_, threads := ?_ }, hpc⟩
    · rw [exists_fOk s.pcs t, hpc]
      exact hfailed
    · change s.nTotal + 1 = s.nIdle + s.workers + 1
      omega
  · rename_i hpc
    rw [hpc] at hfailed hunreported hworkers
    have hrep : (s.setPc t .outside).unreported = s.unreported := Nat.add_right_cancel hunreported
    have hwrk : (s.setPc t .outside).workers = s.workers := Nat.add_right_cancel hworkers
    refine ⟨{ batches := hbatches, todo := hrep ▸ htodo, held := hrep ▸ hheld,
              checks := ?_, failed := ?_, skips := h.skips, threads := ?_,
              rounds := h.rounds }, hout⟩
    · exact hsame ▸ h.checks
    · change Failed check s.log ↔ s.fAllOk = false ∨ _
      rw [hnewFailed, hfailed]
      exact or_congr_right (or_iff_right nofun)
    · change s.nTotal = s.nIdle - 1 + (s.setPc t .outside).workers + 1
      omega
  · rename_i vChecks nNow fOk hpc
    have hbatch := h.batches t
    rw [hpc] at hfailed hunreported hworkers hbatch
    have hrep : (s.setPc t .outside).unreported + nNow = s.unreported := hunreported
    have hwrk : (s.setPc t .outside).workers + 1 = s.workers := hworkers
    have hlt : nNow < uintRange := hbatch.2.2
    refine ⟨{ batches := hbatches, todo := ?_, held := ?_, checks := ?_, failed := ?_,
              skips := h.skips, threads := ?_, rounds := h.rounds }, hout⟩
    · change (s.nTodo + (uintRange - nNow)) % uintRange =
        (s.queue.length + (s.setPc t .outside).unreported) % uintRange
      rw [htodo, Nat.mod_add_mod, ← hrep, Nat.add_assoc, Nat.add_assoc,
        Nat.add_sub_cancel' hlt.le, ← Nat.add_assoc, Nat.add_mod_right]
    · change s.queue.length + (s.setPc t .outside).unreported ≤ s.added.length
      omega
    · exact hsame ▸ h.checks
    · change Failed check s.log ↔ (s.fAllOk && fOk) = false ∨ _
      rw [hnewFailed, hfailed, Bool.and_eq_false_iff, or_assoc]
      rfl
    · change s.nTotal = s.nIdle + (s.setPc t .outside).workers + 1
      omega

theorem inv_wait (h : Inv check nBatchSize 1 s) (hpc : s.pcs t = .outside) :
    Inv check nBatchSize 0 (s.wait t) := by
  have hunreported := unreported_setPc s t .waiting
  have htaken := taken_setPc s t .waiting
  have hworkers := workers_setPc s t .waiting
  have hfailed := h.failed
  rw [exists_fOk s.pcs t] at hfailed
  rw [hpc] at hunreported htaken hworkers hfailed
  have hrep : (s.setPc t .waiting).unreported = s.unreported := Nat.add_right_cancel hunreported
  have hwrk : (s.setPc t .waiting).workers = s.workers := Nat.add_right_cancel hworkers
  have htkn : (s.setPc t .waiting).taken = s.taken := add_right_cancel htaken
  exact
    { batches := batches_setPc h.batches t trivial
      todo := hrep ▸ h.todo
      held := hrep ▸ h.held
      checks := htkn ▸ h.checks
      failed := by
        have hupdate := exists_fOk_update s.pcs t .waiting
        change _ ↔ s.fAllOk = false ∨ ∃ x, (Function.update s.pcs t .waiting x).fOk = false
        rw [hupdate]
        exact hfailed
      skips := h.skips
      threads := by
        have hthreads := h.threads
        change s.nTotal = s.nIdle + 1 + (s.setPc t .waiting).workers + 0
        omega
      rounds := h.rounds }

theorem inv_takeBatch (h : Inv check nBatchSize 1 s) (hpc : s.pcs t = .outside)
    (hq : s.queue ≠ []) : Inv check nBatchSize 0 (s.takeBatch nBatchSize t) := by
  have hle := batchSize_le nBatchSize hq
  have hone : 1 ≤ batchSize nBatchSize s := le_max_left _ _
  have hmax : batchSize nBatchSize s ≤ max 1 nBatchSize :=
    max_le_max (le_refl 1) (min_le_left _ _)
  have hlt := batchSize_lt nBatchSize s
  unfold State.takeBatch
  generalize batchSize nBatchSize s = nNow at hle hone hmax hlt ⊢
  dsimp only
  let batch := (s.queue.drop (s.queue.length - nNow)).reverse
  let pc : Pc α := .working batch nNow s.fAllOk
  change Inv check nBatchSize 0 { s.setPc t pc with queue := _ }
  have hunreported := unreported_setPc s t pc
  have htaken := taken_setPc s t pc
  have hworkers := workers_setPc s t pc
  have hfailed := h.failed
  rw [exists_fOk s.pcs t] at hfailed
  rw [hpc] at hunreported htaken hworkers hfailed
  have hrep : (s.setPc t pc).unreported = s.unreported + nNow := hunreported
  have hwrk : (s.setPc t pc).workers = s.workers + 1 := hworkers
  have htkn : (s.setPc t pc).taken = s.taken + (batch : Multiset α) :=
    (add_zero _).symm.trans htaken
  have hlen : (s.queue.take (s.queue.length - nNow)).length + nNow = s.queue.length := by
    rw [List.length_take]
    omega
  have hsum : (s.queue.take (s.queue.length - nNow)).length + (s.setPc t pc).unreported =
      s.queue.length + s.unreported := by
    omega
  exact
    { batches := batches_setPc h.batches t ⟨hone, hmax, hlt⟩
      todo := by
        change s.nTodo = (_ + (s.setPc t pc).unreported) % uintRange
        rw [hsum]
        exact h.todo
      held := by
        change _ + (s.setPc t pc).unreported ≤ s.added.length
        rw [hsum]
        exact h.held
      checks := by
        change (s.added : Multiset α) = _ + (s.setPc t pc).taken + _
        rw [h.checks, htkn, Multiset.coe_reverse]
        conv_lhs => rw [← List.take_append_drop (s.queue.length - nNow) s.queue]
        rw [← Multiset.coe_add]
        ac_rfl
      failed := by
        have hupdate := exists_fOk_update s.pcs t pc
        change Failed check s.log ↔ s.fAllOk = false ∨
          ∃ x, (Function.update s.pcs t pc x).fOk = false
        rw [hupdate, hfailed]
        change _ ↔ s.fAllOk = false ∨ s.fAllOk = false ∨ _
        rw [← or_assoc, ← or_assoc, or_self, or_assoc]
        exact or_congr_right (or_iff_right nofun)
      skips := h.skips
      threads := by
        have hthreads := h.threads
        change s.nTotal = s.nIdle + (s.setPc t pc).workers + 0
        omega
      rounds := h.rounds }

theorem inv_takeWork (h : Inv check nBatchSize 1 s) (hpc : s.pcs t = .outside)
    (hsmall : s.unreported < uintRange) : Inv check nBatchSize 0 (takeWork nBatchSize t s) := by
  unfold takeWork
  split
  · rename_i hq
    split
    · rename_i hr
      exact inv_leave h hq (h.unreported_eq_zero hsmall hq hr.2)
    · exact inv_wait h hpc
  · rename_i hq
    exact inv_takeBatch h hpc hq

theorem inv_lock (h : Inv check nBatchSize 0 s) (hsmall : Small nBatchSize s) (t : Option ω) :
    Inv check nBatchSize 0 (step check nBatchSize s (.lock t)) := by
  simp only [step]
  split
  · rename_i hdone
    obtain ⟨hclean, hpc⟩ := inv_cleanUp h t hdone
    have hsmall' : Small nBatchSize (cleanUp t s) := by
      rw [Small, added_cleanUp]
      exact hsmall
    exact inv_takeWork hclean hpc (hsmall'.unreported_lt hclean)
  · exact h

theorem inv_step (h : Inv check nBatchSize 0 s) (hsmall : Small nBatchSize s) (e : Event ω α) :
    Inv check nBatchSize 0 (step check nBatchSize s e) := by
  cases e with
  | add vChecks => exact inv_add h vChecks
  | lock t => exact inv_lock h hsmall t
  | execute t => exact inv_execute h t

theorem small_step (hsmall : Small nBatchSize s) {e : Event ω α} (he : Fits nBatchSize s e) :
    Small nBatchSize (step check nBatchSize s e) := by
  cases hsmall with
  | inl hs => exact Or.inl hs
  | inr hs =>
    cases he with
    | inl he => exact Or.inl he
    | inr he =>
      right
      cases e with
      | add vChecks =>
        have hadd := he vChecks rfl
        simp only [step]
        split
        · change (s.added ++ vChecks).length < uintRange
          rwa [List.length_append]
        · exact hs
      | lock t =>
        simp only [step]
        split
        · apply added_takeWork
          rwa [added_cleanUp]
        · exact hs
      | execute t =>
        simp only [step]
        split <;> exact hs

/-- With few threads and small batches every run fits. -/
theorem meets_fits (h : Fintype.card (Option ω) * max 1 nBatchSize < uintRange)
    (s : State (Option ω) α) (es : List (Event ω α)) :
    Meets (step check nBatchSize) (Fits nBatchSize) s es := by
  induction es generalizing s with
  | nil => trivial
  | cons e es ih => exact ⟨Or.inl h, ih (step check nBatchSize s e)⟩

theorem inv_run {es : List (Event ω α)}
    (hes : Meets (step check nBatchSize) (Fits nBatchSize) {} es) :
    Inv check nBatchSize 0 (run (step check nBatchSize) {} es) ∧
      Small nBatchSize (run (step check nBatchSize) {} es) :=
  run_invariant (I := fun s => Inv check nBatchSize 0 s ∧ Small nBatchSize s)
    (fun _ e h he => ⟨inv_step h.1 h.2 e, small_step h.2 he⟩)
    ⟨inv_init, Or.inr (by decide : 0 < uintRange)⟩ hes

/-- A finished round has gone through all of its checks and returns their conjunction, `nTodo`
counts the checks that are queued or taken and unreported, and a round leaves the queue as it
was found: empty, with no failure remembered, ready for `CCheckQueueControl`. -/
theorem wait_is_conjunction (check : α → Bool) (nBatchSize : ℕ) (es : List (Event ω α))
    (hes : Meets (step check nBatchSize) (Fits nBatchSize) {} es) :
    let s := run (step check nBatchSize) {} es
    (∀ r ∈ s.rounds, r.Sound check) ∧
      s.nTodo = (s.queue.length + s.unreported) % uintRange ∧
      (s.added.length < uintRange → s.nTodo = s.queue.length + s.unreported) ∧
      ∀ e, (step check nBatchSize s e).rounds ≠ s.rounds →
        let s' := step check nBatchSize s e
        s'.queue = [] ∧ s'.fAllOk = true ∧ s'.isIdle = true := by
  obtain ⟨hinv, hsmall⟩ := inv_run hes
  refine ⟨hinv.rounds, hinv.todo, ?_, ?_⟩
  · intro hadded
    have hheld := hinv.held
    rw [hinv.todo]
    exact Nat.mod_eq_of_lt (by omega)
  · intro e he
    have hnext := inv_step hinv hsmall e
    obtain ⟨s', hq, htodo, hs'⟩ := rounds_step he
    rw [hs'] at hnext ⊢
    have hempty : Small nBatchSize s'.leave := Or.inr (by decide : 0 < uintRange)
    have hzero : s'.leave.unreported = 0 :=
      hnext.unreported_eq_zero (hempty.unreported_lt hnext) hq htodo
    exact ⟨hq, rfl, hnext.isIdle hzero htodo rfl⟩

end Rules

/-- Two workers and the master check two transactions' inputs; the second round is not spoilt by
the failure of the first. -/
theorem wait_is_conjunction_two_rounds :
    let es : List (Event (Fin 2) ℕ) :=
      [.add [1, 2], .lock (some 0), .execute (some 0), .add [3], .lock (some 0), .lock none,
        .execute (some 0), .execute none, .lock (some 0), .lock (some 0), .lock none,
        .add [2], .lock none, .execute none, .lock none]
    let s := run (step (fun c => decide (c ≠ 3)) 128) {} es
    s.rounds.length = 2 ∧ ∀ r ∈ s.rounds, r.Sound (fun c => decide (c ≠ 3)) := by
  intro es s
  have hcard : Fintype.card (Option (Fin 2)) * max 1 128 < uintRange := by decide
  have hwait := wait_is_conjunction (fun c : ℕ => decide (c ≠ 3)) 128 es
    (meets_fits hcard {} es)
  exact ⟨by rfl, hwait.1⟩

/-- `nTodo` cannot count a batch of `2 ^ 32` checks. -/
theorem todo_loses_full_batch :
    let s : State (Option (Fin 16)) Unit :=
      run (step (fun _ => true) 128) {} [.add (List.replicate uintRange ())]
    s.nTodo ≠ s.queue.length + s.unreported := by
  have hadd : ∀ vChecks : List Unit,
      let s : State (Option (Fin 16)) Unit := run (step (fun _ => true) 128) {} [.add vChecks]
      s.nTodo = (0 + vChecks.length) % uintRange ∧ s.queue = [] ++ vChecks :=
    fun _ => ⟨rfl, rfl⟩
  obtain ⟨htodo, hqueue⟩ := hadd (List.replicate uintRange ())
  have hpos : 0 < uintRange := by decide
  dsimp only
  rw [htodo, hqueue, List.nil_append, List.length_replicate, Nat.zero_add, Nat.mod_self]
  omega

end Scrypta.CheckQueue
