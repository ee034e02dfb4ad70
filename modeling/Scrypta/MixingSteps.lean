import Scrypta.MixingPool

/-! What each step of a mixing pool can do. -/

namespace Scrypta.Mixing

open Validation (bind_ok checkTransaction require_ok whenever_ok)

section Steps

variable {node : Node} {m : Moment} {pool : CObfuscationPool}

/-- The states that a masternode's pool is in between two events. -/
def Settled (pool : CObfuscationPool) : Prop :=
  pool.state ≠ .error ∧ pool.state ≠ .success ∧ pool.state ≠ .finalizeTransaction

theorem settled_setNull (m : Moment) (pool : CObfuscationPool) : Settled (pool.setNull m) :=
  ⟨PoolStatus.noConfusion, PoolStatus.noConfusion, PoolStatus.noConfusion⟩

section UpdateState

variable (m) (newState : PoolStatus) (pool)

@[simp] theorem entries_updateState : (pool.updateState m newState).entries = pool.entries := by
  unfold CObfuscationPool.updateState
  split_ifs <;> rfl

@[simp] theorem finalTransaction_updateState :
    (pool.updateState m newState).finalTransaction = pool.finalTransaction := by
  unfold CObfuscationPool.updateState
  split_ifs <;> rfl

@[simp] theorem sessionUsers_updateState :
    (pool.updateState m newState).sessionUsers = pool.sessionUsers := by
  unfold CObfuscationPool.updateState
  split_ifs <;> rfl

@[simp] theorem vecSessionCollateral_updateState :
    (pool.updateState m newState).vecSessionCollateral = pool.vecSessionCollateral := by
  unfold CObfuscationPool.updateState
  split_ifs <;> rfl

theorem updateState_error : pool.updateState m .error = pool := if_pos (.inl rfl)

end UpdateState

theorem Settled.updateState (h : Settled pool) (m : Moment) {newState : PoolStatus}
    (hnew : newState ≠ .finalizeTransaction) : Settled (pool.updateState m newState) := by
  unfold CObfuscationPool.updateState
  split
  · exact h
  · next htaken => exact ⟨(not_or.mp htaken).1, (not_or.mp htaken).2, hnew⟩

/-! The check for the next phase. -/

/-- The final transaction of the entries, and nothing signed yet. -/
def assembled (m : Moment) (pool : CObfuscationPool) : CObfuscationPool :=
  { (pool.updateState m .finalizeTransaction).updateState m .signing with
    finalTransaction := finalize m pool }

/-- Where `Check` can leave a pool. -/
inductive Checked (node : Node) (m : Moment) (pool : CObfuscationPool) : CObfuscationPool → Prop
  | stays : Checked node m pool pool
  | assembles : pool.state = .acceptingEntries →
      node.nPoolMaxTransactions ≤ pool.entries.length → Checked node m pool (assembled m pool)
  | transmits {q : CObfuscationPool} : Checked node m pool q → signaturesComplete pool = true →
      Checked node m pool (q.updateState m .transmission)
  | resets (q : CObfuscationPool) : signaturesComplete pool = true →
      Checked node m pool (q.setNull m)
  | refuses (q : CObfuscationPool) : signaturesComplete pool = true →
      Checked node m pool ((q.setNull m).updateState m .acceptingEntries)

theorem Checked.settled {q : CObfuscationPool} (h : Checked node m pool q)
    (hsettled : Settled pool) : Settled q := by
  induction h with
  | stays => exact hsettled
  | assembles => exact ⟨PoolStatus.noConfusion, PoolStatus.noConfusion, PoolStatus.noConfusion⟩
  | transmits _ _ ih => exact ih.updateState m PoolStatus.noConfusion
  | resets q => exact settled_setNull m q
  | refuses q => exact (settled_setNull m q).updateState m PoolStatus.noConfusion

theorem checked (node : Node) (m : Moment) (h : Settled pool) :
    Checked node m pool (check node m pool) := by
  unfold check
  extract_lets p₁ src p₂ p₃
  have h₂ : Checked node m pool p₂ ∧ p₂.entries = pool.entries := by
    by_cases hfull : pool.state = .acceptingEntries ∧
        node.nPoolMaxTransactions ≤ pool.entries.length
    · have hp : p₁ = pool.updateState m .finalizeTransaction := if_pos hfull
      have hstate : p₁.state = .finalizeTransaction := by
        rw [hp]
        rfl
      have hassembled : p₂ = assembled m pool := by
        rw [show p₂ = { p₁.updateState m .signing with finalTransaction := finalize m p₁ } from
          if_pos hstate, hp]
        rfl
      rw [hassembled]
      exact ⟨.assembles hfull.1 hfull.2, rfl⟩
    · have hp : p₁ = pool := if_neg hfull
      have hsame : p₂ = p₁ := if_neg (by rw [hp]; exact h.2.2)
      rw [hsame, hp]
      exact ⟨.stays, rfl⟩
  have h₃ : Checked node m pool p₃ := by
    by_cases hsigned : p₂.state = .signing ∧ signaturesComplete p₂ = true
    · have hcomplete := hsigned.2
      rw [signaturesComplete, h₂.2, ← signaturesComplete] at hcomplete
      rw [show p₃ = checkFinalTransaction m (p₂.updateState m .transmission) from if_pos hsigned,
        checkFinalTransaction]
      split_ifs
      · exact .refuses _ hcomplete
      · exact .transmits h₂.1 hcomplete
      · exact .resets _ hcomplete
    · rw [show p₃ = p₂ from if_neg hsigned]
      exact h₂.1
  have hsettled := h₃.settled h
  rw [if_neg fun hover => hover.1.elim hsettled.1 hsettled.2.1]
  exact h₃

/-! Joining. -/

/-- Where a `dsa` message can leave a pool. -/
inductive Joined (node : Node) (m : Moment) (nDenom : ℤ) (txCollateral : CTransaction)
    (pool : CObfuscationPool) : CObfuscationPool → Prop
  | stays : Joined node m nDenom txCollateral pool pool
  | starts : pool.sessionUsers ≤ 0 → Joined node m nDenom txCollateral pool
      { pool with
        sessionID := 1 + (m.rand % 999999 : ℕ)
        sessionDenom := nDenom
        sessionUsers := 1
        lastTimeChanged := m.nTimeMillis
        state := .queue
        vecSessionCollateral := pool.vecSessionCollateral ++ [txCollateral] }
  | joins : 0 < pool.sessionUsers → pool.sessionUsers < node.nPoolMaxTransactions →
      pool.state = .acceptingEntries ∨ pool.state = .queue → Joined node m nDenom txCollateral pool
      { pool with
        sessionUsers := pool.sessionUsers + 1
        lastTimeChanged := m.nTimeMillis
        vecSessionCollateral := pool.vecSessionCollateral ++ [txCollateral] }

theorem Joined.settled {nDenom : ℤ} {txCollateral : CTransaction} {q : CObfuscationPool}
    (h : Joined node m nDenom txCollateral pool q) (hsettled : Settled pool) : Settled q := by
  cases h with
  | stays => exact hsettled
  | starts => exact ⟨PoolStatus.noConfusion, PoolStatus.noConfusion, PoolStatus.noConfusion⟩
  | joins => exact hsettled

theorem joined_isCompatibleWithSession (node : Node) (m : Moment) (nDenom : ℤ)
    (txCollateral : CTransaction) (pool : CObfuscationPool) :
    Joined node m nDenom txCollateral pool
      (isCompatibleWithSession node m nDenom txCollateral pool).1 := by
  unfold isCompatibleWithSession
  split
  · exact .stays
  split
  · exact .stays
  extract_lets p first queued
  by_cases hstarts : pool.sessionUsers ≤ 0
  · have hp : p = { pool with sessionUsers := 0 } := by
      rcases hstarts.lt_or_eq with hneg | hzero
      · exact if_pos hneg
      · rw [← hzero]
        exact if_neg hzero.not_lt
    have hqueued : queued = { first with state := .queue } := by
      simp only [queued, CObfuscationPool.updateState, first, ite_self]
      rfl
    rw [if_pos (by rw [hp]), hqueued]
    have hresult : Joined node m nDenom txCollateral pool _ := .starts hstarts
    simpa only [first, hp, zero_add] using hresult
  · have hp : p = pool := if_neg fun hneg => hstarts hneg.le
    rw [hp, if_neg fun hzero => hstarts hzero.le]
    split
    · exact .stays
    next hopen =>
    split
    · exact .stays
    · obtain ⟨hstate, hroom⟩ := not_or.mp hopen
      refine .joins (not_le.mp hstarts) (not_le.mp hroom) ?_
      by_contra hother
      exact hstate (not_or.mp hother)

theorem joined_processDsa (node : Node) (m : Moment) (nVersion nDenom : ℤ)
    (txCollateral : CTransaction) (pool : CObfuscationPool) :
    Joined node m nDenom txCollateral pool
      (processDsa node m nVersion nDenom txCollateral pool).1 := by
  unfold processDsa
  split
  · exact .stays
  split
  · exact .stays
  split
  · exact .stays
  · exact joined_isCompatibleWithSession node m nDenom txCollateral pool

/-! Timeouts. -/

/-- Where `CheckTimeout` can leave a pool. -/
inductive TimedOut (m : Moment) (pool : CObfuscationPool) : CObfuscationPool → Prop
  | stays : TimedOut m pool pool
  | expires : pool.state = .acceptingEntries ∨ pool.state = .queue →
      TimedOut m pool { pool with entries := pool.entries.filter fun v => !isExpired m v }
  | resets (q : CObfuscationPool) : TimedOut m pool (q.setNull m)

theorem TimedOut.settled {q : CObfuscationPool} (h : TimedOut m pool q)
    (hsettled : Settled pool) : Settled q := by
  cases h with
  | stays => exact hsettled
  | expires => exact hsettled
  | resets q => exact settled_setNull m q

theorem timedOut (m : Moment) (pool : CObfuscationPool) :
    TimedOut m pool (checkTimeout m pool) := by
  unfold checkTimeout
  extract_lets entries p₁ p₂
  rw [updateState_error]
  have h₂ : TimedOut m pool p₂ := by
    unfold p₂ p₁
    rw [updateState_error]
    split_ifs with hwaits hlast htime hlast htime
    · exact .resets _
    · exact .resets _
    · exact .resets _
    · exact .expires hwaits
    · exact .resets _
    · exact .stays
  split_ifs
  · exact .resets _
  · exact h₂

theorem Settled.checkForCompleteQueue (h : Settled pool) (node : Node) (m : Moment) :
    Settled (checkForCompleteQueue node m pool) := by
  unfold Mixing.checkForCompleteQueue
  split_ifs
  · exact h.updateState m PoolStatus.noConfusion
  · exact h

/-! Handing in. -/

theorem inputs_of_checkTransaction {tx : CTransaction}
    (h : checkTransaction node.par tx = .ok ()) (hcoinbase : tx.isCoinBase = false) :
    tx.vin ≠ [] ∧ (∀ txin ∈ tx.vin, txin.prevout.isNull = false) ∧ tx.prevouts.Nodup := by
  simp only [checkTransaction, bind_ok, require_ok, whenever_ok, decide_eq_true_eq] at h
  obtain ⟨_, hvin, _, -, _, -, _, -, _, hnodup, _, -, hnull⟩ := h
  rw [hcoinbase] at hnull
  refine ⟨fun hempty => ?_, fun txin htxin => ?_, hnodup⟩
  · rw [hempty] at hvin
    exact absurd hvin (by decide)
  · exact (Bool.not_eq_true' _).mp (List.all_eq_true.mp (hnull rfl) txin htxin)

/-- What has been looked at when a message comes to the pool. -/
theorem of_refusesDsi {nVersion : ℤ} {msg : Dsi}
    (h : refusesDsi node m nVersion msg pool = none) :
    (node.nPoolMaxTransactions : ℤ) ≤ pool.sessionUsers ∧
      pool.isCompatibleWithEntries msg.vout = true ∧ msg.vin ≠ [] ∧
      (∀ txin ∈ msg.vin, txin.prevout.isNull = false) ∧ (msg.vin.map (·.prevout)).Nodup := by
  unfold refusesDsi at h
  split at h
  · exact nomatch h
  split at h
  · exact nomatch h
  next hready =>
  split at h
  · exact nomatch h
  next hcompatible =>
  split at h
  · exact nomatch h
  split at h
  · exact nomatch h
  split at h
  · exact nomatch h
  split at h
  · exact nomatch h
  split at h
  · exact nomatch h
  next hacceptable =>
  rw [Bool.not_eq_true, Bool.not_eq_false'] at hready hcompatible hacceptable
  refine ⟨of_decide_eq_true hready, hcompatible, ?_⟩
  unfold acceptableInputs at hacceptable
  rw [Bool.and_eq_true, Bool.and_eq_true, decide_eq_true_eq, Bool.not_eq_true'] at hacceptable
  obtain ⟨⟨hcheck, hcoinbase⟩, -⟩ := hacceptable
  exact inputs_of_checkTransaction hcheck hcoinbase

theorem addEntry_accepts {msg : Dsi} : (addEntry node m msg pool).2.1 = true ↔
    (∀ txin ∈ msg.vin, txin.prevout.isNull = false ∧ 0 ≤ msg.nAmount) ∧
      isCollateralValid node m msg.txCollateral = true ∧
      pool.entries.length < node.nPoolMaxTransactions ∧
      ∀ txin ∈ msg.vin, ∀ v ∈ pool.entries, ∀ s ∈ v.sev, s.toCTxIn ≠ txin := by
  unfold addEntry
  extract_lets refused
  split
  · next hinput =>
    obtain ⟨txin, htxin, hbad⟩ := List.any_eq_true.mp hinput
    rw [Bool.or_eq_true, decide_eq_true_eq] at hbad
    refine ⟨(fun h => nomatch h), fun h => ?_⟩
    obtain ⟨hnull, hamount⟩ := h.1 txin htxin
    rw [hnull] at hbad
    exact absurd hamount (not_le.mpr (hbad.resolve_left Bool.false_ne_true))
  next hinput =>
  split
  · next hcollateral =>
    exact ⟨(fun h => nomatch h), fun h => by rw [h.2.1] at hcollateral; exact nomatch hcollateral⟩
  next hcollateral =>
  split
  · next hfull => exact ⟨(fun h => nomatch h), fun h => absurd h.2.2.1 (not_lt.mpr hfull)⟩
  next hfull =>
  split
  · next hhave =>
    refine ⟨(fun h => nomatch h), fun h => ?_⟩
    obtain ⟨txin, htxin, hhave⟩ := List.any_eq_true.mp hhave
    obtain ⟨v, hv, hhave⟩ := List.any_eq_true.mp hhave
    obtain ⟨s, hs, hhave⟩ := List.any_eq_true.mp hhave
    exact absurd (of_decide_eq_true hhave) (h.2.2.2 txin htxin v hv s hs)
  next hhave =>
  refine ⟨fun _ => ⟨fun txin htxin => ?_, ?_, not_le.mp hfull, fun txin htxin v hv s hs heq => ?_⟩,
    fun _ => rfl⟩
  · have hgood : ¬(txin.prevout.isNull || decide (msg.nAmount < 0)) = true := fun hbad =>
      hinput (List.any_eq_true.mpr ⟨txin, htxin, hbad⟩)
    rw [Bool.or_eq_true, not_or, Bool.not_eq_true, decide_eq_true_eq, not_lt] at hgood
    exact hgood
  · rwa [Bool.not_eq_true, Bool.not_eq_false'] at hcollateral
  · exact hhave (List.any_eq_true.mpr ⟨txin, htxin, List.any_eq_true.mpr ⟨v, hv,
      List.any_eq_true.mpr ⟨s, hs, decide_eq_true heq⟩⟩⟩)

theorem addEntry_pool (node : Node) (m : Moment) (msg : Dsi) (pool : CObfuscationPool) :
    (addEntry node m msg pool).1 =
      if (addEntry node m msg pool).2.1 = true then
        { pool with entries := pool.entries ++ [msg.entry m] }
      else { pool with sessionUsers := pool.sessionUsers - 1 } := by
  unfold addEntry
  extract_lets refused
  split
  · rfl
  split
  · rfl
  split
  · rfl
  split
  · rfl
  · rfl

/-- Where a `dsi` message can leave a pool, and whether it is accepted. -/
inductive HandedIn (node : Node) (m : Moment) (nVersion : ℤ) (msg : Dsi)
    (pool : CObfuscationPool) : CObfuscationPool → Bool → Prop
  | refuses {errorID : Message} : refusesDsi node m nVersion msg pool = some errorID →
      HandedIn node m nVersion msg pool pool false
  | drops : refusesDsi node m nVersion msg pool = none →
      ¬(addEntry node m msg pool).2.1 = true →
      HandedIn node m nVersion msg pool { pool with sessionUsers := pool.sessionUsers - 1 } false
  | adds {q : CObfuscationPool} : refusesDsi node m nVersion msg pool = none →
      (addEntry node m msg pool).2.1 = true →
      Checked node m { pool with entries := pool.entries ++ [msg.entry m] } q →
      HandedIn node m nVersion msg pool q true

theorem HandedIn.settled {nVersion : ℤ} {msg : Dsi} {q : CObfuscationPool} {accepted : Bool}
    (h : HandedIn node m nVersion msg pool q accepted) (hsettled : Settled pool) : Settled q := by
  cases h with
  | refuses => exact hsettled
  | drops => exact hsettled
  | adds _ _ hchecked => exact hchecked.settled hsettled

theorem handedIn (node : Node) (m : Moment) (nVersion : ℤ) (msg : Dsi) (h : Settled pool) :
    HandedIn node m nVersion msg pool (processDsi node m nVersion msg pool).1
      (processDsi node m nVersion msg pool).2.accepted := by
  unfold processDsi
  split
  · next errorID hrefuses => exact .refuses hrefuses
  next hnone =>
  have hpool := addEntry_pool node m msg pool
  dsimp only [CObfuscationPool.status]
  by_cases hadded : (addEntry node m msg pool).2.1 = true
  · rw [if_pos hadded] at hpool
    have hadd : Settled { pool with entries := pool.entries ++ [msg.entry m] } := h
    rw [if_pos hadded, hpool, hadded]
    exact .adds hnone hadded (checked node m hadd)
  · rw [if_neg hadded] at hpool
    rw [if_neg hadded, hpool, Bool.eq_false_iff.mpr hadded]
    exact .drops hnone hadded

end Steps

end Scrypta.Mixing
