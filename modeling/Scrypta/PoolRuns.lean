import Scrypta.BlockReads
import Scrypta.PoolRemoval
import Scrypta.Toolkit.Runs

/-! The memory pool over its whole life. Its functions are called in any order; a transaction comes
in through `AcceptToMemoryPool` only, which looks for conflicts and for inputs that are named
twice. -/

namespace Scrypta.Mempool

open Outcome (bind_eq_ok mapError_eq_ok)
open Runs (run)
open Validation

/-- The pool with its counters and the statics of the two functions that test transactions. -/
structure Held where
  pool : CountedPool
  acceptLimiter : FreeLimiter
  inputsLimiter : FreeLimiter

namespace Held

def state (s : Held) : State := ⟨s.pool.toCTxMemPool, s.acceptLimiter, s.inputsLimiter⟩

/-- The counters stay where a function leaves the maps alone. -/
def withState (s : Held) (s' : State) : Held :=
  ⟨{ s'.pool with
      totalTxSize := s.pool.totalTxSize
      nTransactionsUpdated := s.pool.nTransactionsUpdated }, s'.acceptLimiter, s'.inputsLimiter⟩

/-- A transaction that is accepted is counted by `addUnchecked`. -/
def acceptToMemoryPool (s : Held) (nd : Node) (tx : CTransaction)
    (fLimitFree fRejectInsaneFee ignoreFees : Bool) : Bool × Held :=
  match s.state.acceptToMemoryPool nd tx fLimitFree fRejectInsaneFee ignoreFees with
  | (.error _, s') => (false, s.withState s')
  | (.ok (), s') =>
    let counted := s.withState s'
    (true, { counted with pool := { counted.pool with
      totalTxSize := s.pool.totalTxSize + BitVec.ofNat 64 tx.getSerializeSize
      nTransactionsUpdated := s.pool.nTransactionsUpdated + 1 } })

def acceptableInputs (s : Held) (nd : Node) (tx : CTransaction)
    (fLimitFree fRejectInsaneFee isDSTX : Bool) : Held :=
  s.withState (s.state.acceptableInputs nd tx fLimitFree fRejectInsaneFee isDSTX).2

def prioritiseTransaction (s : Held) (nd : Node) (hash : Uint256)
    (dPriorityDelta : FeeEstimates.Double) (nFeeDelta : CAmount) : Held :=
  { s with pool := { s.pool with
    toCTxMemPool := s.pool.toCTxMemPool.prioritiseTransaction nd hash dPriorityDelta nFeeDelta } }

def start : Held := ⟨CountedPool.empty, ⟨0, 0⟩, ⟨0, 0⟩⟩

end Held

inductive Call
  | acceptToMemoryPool (nd : Node) (tx : CTransaction)
      (fLimitFree fRejectInsaneFee ignoreFees : Bool)
  | acceptableInputs (nd : Node) (tx : CTransaction) (fLimitFree fRejectInsaneFee isDSTX : Bool)
  | prioritiseTransaction (nd : Node) (hash : Uint256) (dPriorityDelta : FeeEstimates.Double)
      (nFeeDelta : CAmount)
  | clearPrioritisation (hash : Uint256)
  | remove (tx : CTransaction) (fRecursive : Bool)
  | removeConflicts (tx : CTransaction)
  | removeForBlock (vtx : List CTransaction)
  | removeCoinbaseSpends (par : Params) (pcoins : CCoinsViewCache) (nMemPoolHeight : ℕ)
  | clear
  | addTransactionsUpdated (n : BitVec 32)

def step (s : Held) : Call → Held
  | .acceptToMemoryPool nd tx fLimitFree fRejectInsaneFee ignoreFees =>
    (s.acceptToMemoryPool nd tx fLimitFree fRejectInsaneFee ignoreFees).2
  | .acceptableInputs nd tx fLimitFree fRejectInsaneFee isDSTX =>
    s.acceptableInputs nd tx fLimitFree fRejectInsaneFee isDSTX
  | .prioritiseTransaction nd hash dPriorityDelta nFeeDelta =>
    s.prioritiseTransaction nd hash dPriorityDelta nFeeDelta
  | .clearPrioritisation hash => { s with pool := s.pool.clearPrioritisation hash }
  | .remove tx fRecursive => { s with pool := (s.pool.remove tx fRecursive).2 }
  | .removeConflicts tx => { s with pool := (s.pool.removeConflicts tx).2 }
  | .removeForBlock vtx => { s with pool := (s.pool.removeForBlock vtx).2 }
  | .removeCoinbaseSpends par pcoins nMemPoolHeight =>
    { s with pool := CountedPool.removeCoinbaseSpends par s.pool pcoins nMemPoolHeight }
  | .clear => { s with pool := s.pool.clear }
  | .addTransactionsUpdated n =>
    { s with pool := { s.pool with nTransactionsUpdated := s.pool.nTransactionsUpdated + n } }

section Parts

variable {pool pool₀ : CountedPool}

theorem Linked.congr {pool' : CountedPool} (hl : Linked pool) (htx : pool'.mapTx = pool.mapTx)
    (hnext : pool'.mapNextTx = pool.mapNextTx) (htotal : pool'.totalTxSize = pool.totalTxSize) :
    Linked pool' where
  hash he := hl.hash (htx ▸ he)
  marked {h e} he {i txin} hin := by
    rw [hnext]
    exact hl.marked (htx ▸ he) hin
  marks h := by
    rw [htx]
    exact hl.marks (hnext ▸ h)
  total := by
    rw [htotal, htx]
    exact hl.total

theorem Part.remove (h : Part pool₀ pool) (tx : CTransaction) (fRecursive : Bool) :
    Part pool₀ (pool.remove tx fRecursive).2 :=
  h.trans (h.linked.remove_part tx fRecursive)

theorem Part.removeConflict {r : List CTransaction × CountedPool} (h : Part pool₀ r.2)
    (tx : CTransaction) (txin : CTxIn) :
    Part pool₀ (CountedPool.removeConflict tx r txin).2 := by
  unfold CountedPool.removeConflict
  split
  · exact h
  · split
    · exact h
    · exact h.remove _ true

theorem Part.foldl_removeConflict {tx : CTransaction} (vin : List CTxIn)
    {r : List CTransaction × CountedPool} (h : Part pool₀ r.2) :
    Part pool₀ (vin.foldl (CountedPool.removeConflict tx) r).2 := by
  induction vin generalizing r with
  | nil => exact h
  | cons txin vin ih => exact ih (h.removeConflict tx txin)

theorem Part.removeConflicts (h : Part pool₀ pool) (tx : CTransaction) :
    Part pool₀ (pool.removeConflicts tx).2 :=
  Part.foldl_removeConflict tx.vin (r := ([], pool)) h

theorem Part.clearPrioritisation (h : Part pool₀ pool) (hash : Uint256) :
    Part pool₀ (pool.clearPrioritisation hash) :=
  ⟨h.linked.congr rfl rfl rfl, h.part⟩

theorem Part.removeMined {r : List CTransaction × CountedPool} (h : Part pool₀ r.2)
    (tx : CTransaction) : Part pool₀ (CountedPool.removeMined r tx).2 :=
  ((h.remove tx false).removeConflicts tx).clearPrioritisation tx.getHash

theorem Part.foldl_removeMined (vtx : List CTransaction) {r : List CTransaction × CountedPool}
    (h : Part pool₀ r.2) : Part pool₀ (vtx.foldl CountedPool.removeMined r).2 := by
  induction vtx generalizing r with
  | nil => exact h
  | cons tx vtx ih => exact ih (h.removeMined tx)

theorem Part.removeForBlock (h : Part pool₀ pool) (vtx : List CTransaction) :
    Part pool₀ (pool.removeForBlock vtx).2 :=
  Part.foldl_removeMined vtx (r := ([], pool)) h

theorem Part.removeAll (h : Part pool₀ pool) (txs : List CTransaction) :
    Part pool₀ (txs.foldl (fun pool tx => (pool.remove tx true).2) pool) := by
  induction txs generalizing pool with
  | nil => exact h
  | cons tx txs ih => exact ih (h.remove tx true)

end Parts

section Conflicts

variable {pool : CountedPool} {r : List CTransaction × CountedPool} {tx : CTransaction}
  {h : Uint256} {e : CTxMemPoolEntry}

theorem removeConflict_resolves (hl : Linked r.2) (txin : CTxIn)
    (he : (CountedPool.removeConflict tx r txin).2.mapTx.find h = some e)
    (hp : txin.prevout ∈ e.tx.prevouts) : h = tx.getHash := by
  have hold := (hl.self_part.removeConflict tx txin).part he
  obtain ⟨txin', hin, hprev⟩ := List.mem_map.mp hp
  obtain ⟨i, hi⟩ := List.mem_iff_getElem?.mp hin
  have hmark := hl.marked hold hi
  rw [hprev] at hmark
  unfold CountedPool.removeConflict at he
  simp only [hmark] at he
  by_cases hsame : e.tx.getHash = tx.getHash
  · rw [← hl.hash hold, hsame]
  · rw [if_neg hsame] at he
    refine absurd ?_ (hl.find_remove.mp he).2
    rw [← hl.hash hold]
    exact .self (hl.hash hold ▸ hold)

theorem foldl_removeConflict_resolves {vin : List CTxIn} (hl : Linked r.2)
    (he : (vin.foldl (CountedPool.removeConflict tx) r).2.mapTx.find h = some e) {p : COutPoint}
    (hp : p ∈ e.tx.prevouts) (hin : p ∈ vin.map CTxIn.prevout) : h = tx.getHash := by
  induction vin generalizing r with
  | nil => cases hin
  | cons txin vin ih =>
    have hnext := (hl.self_part.removeConflict tx txin).linked
    rcases List.mem_cons.mp hin with rfl | hin
    · exact removeConflict_resolves hl txin
        ((Part.foldl_removeConflict vin hnext.self_part).part he) hp
    · exact ih hnext he hin

/-- No transaction of the pool spends what one of the list spends. -/
def SpendsApart (pool : CTxMemPool) (vtx : List CTransaction) : Prop :=
  ∀ h e, pool.mapTx.find h = some e → ∀ tx ∈ vtx, e.tx.prevouts.Disjoint tx.prevouts

/-- The mined transaction goes first, so that every conflict is one with another transaction. -/
theorem removeMined_apart (hl : Linked r.2) (tx : CTransaction) :
    SpendsApart (CountedPool.removeMined r tx).2.toCTxMemPool [tx] := by
  intro h e he t ht p hp hpt
  rw [List.mem_singleton.mp ht] at hpt
  have hpart := hl.remove_part tx false
  have hsame : h = tx.getHash :=
    foldl_removeConflict_resolves (r := ([], (r.2.remove tx false).2)) hpart.linked he hp hpt
  have hleft := (hpart.linked.self_part.removeConflicts tx).part he
  exact (hl.find_remove_one.mp hleft).2 hsame

theorem foldl_removeMined_apart {vtx : List CTransaction} (hl : Linked r.2) :
    SpendsApart (vtx.foldl CountedPool.removeMined r).2.toCTxMemPool vtx := by
  induction vtx generalizing r with
  | nil => exact fun h e he tx htx => absurd htx List.not_mem_nil
  | cons t vtx ih =>
    have hnext := (hl.self_part.removeMined t).linked
    intro h e he tx htx
    rcases List.mem_cons.mp htx with rfl | htx
    · exact removeMined_apart hl tx h e
        ((Part.foldl_removeMined vtx hnext.self_part).part he) tx List.mem_cons_self
    · exact ih hnext h e he tx htx

end Conflicts

section Accept

variable (s : Held) (nd : Node) (tx : CTransaction)
variable (fLimitFree fRejectInsaneFee ignoreFees isDSTX : Bool)

/-- What the checks before the fees ask of the pool. -/
theorem fresh_of_checksBeforeFees {nd : Node} {pool : CTxMemPool} {tx : CTransaction}
    {full : Bool} {c : Candidate}
    (h : checksBeforeFees nd pool tx full = .ok c) :
    tx.prevouts.Nodup ∧ pool.mapTx.find tx.getHash = none ∧
      ∀ p ∈ tx.prevouts, pool.mapNextTx.find p = none := by
  simp only [checksBeforeFees, bind_eq_ok, mapError_eq_ok, checkLoose, checkConflicts,
    require_ok, Bool.not_eq_true', List.all_eq_true, Dict.count_eq_false] at h
  obtain ⟨_, ⟨_, hcheck, -⟩, _, ⟨_, habsent, _, -, hfree⟩, -⟩ := h
  refine ⟨nodup_of_checkTransaction hcheck, habsent, fun p hp => ?_⟩
  obtain ⟨txin, hin, rfl⟩ := List.mem_map.mp hp
  exact hfree txin hin

/-- `AcceptToMemoryPool` adds the transaction to the pool, or leaves the maps as they are. -/
theorem acceptToMemoryPool_cases :
    ((s.acceptToMemoryPool nd tx fLimitFree fRejectInsaneFee ignoreFees).1 = false ∧
      ∃ deltas, (s.acceptToMemoryPool nd tx fLimitFree fRejectInsaneFee ignoreFees).2.pool =
        { s.pool with mapDeltas := deltas }) ∨
    (s.acceptToMemoryPool nd tx fLimitFree fRejectInsaneFee ignoreFees).1 = true ∧
      ∃ c deltas entry, checksBeforeFees nd s.pool.toCTxMemPool tx true = .ok c ∧ entry.tx = tx ∧
        (s.acceptToMemoryPool nd tx fLimitFree fRejectInsaneFee ignoreFees).2.pool =
          ({ s.pool with mapDeltas := deltas } : CountedPool).addUnchecked tx.getHash entry := by
  unfold Held.acceptToMemoryPool State.acceptToMemoryPool
  cases hbefore : checksBeforeFees nd s.state.pool tx true with
  | error r => exact .inl ⟨rfl, _, rfl⟩
  | ok c =>
    dsimp only
    generalize hfees : (if tx.getHash ∈ nd.mapObfuscationBroadcastTxes then
      ((.ok (), s.state.prioritise nd tx) : Except Refusal Unit × State)
      else if !ignoreFees then s.state.acceptFees nd tx fLimitFree c else (.ok (), s.state)) = fees
    have hpool : ∃ deltas, fees.2.pool = { s.pool.toCTxMemPool with mapDeltas := deltas } := by
      rw [← hfees]
      split_ifs
      · exact ⟨_, rfl⟩
      · exact ⟨_, rfl⟩
      · exact ⟨_, rfl⟩
    obtain ⟨deltas, hpool⟩ := hpool
    cases hchecks : (do fees.1; checksAfterFees nd tx true fRejectInsaneFee c) with
    | error r =>
      refine .inl ⟨rfl, deltas, ?_⟩
      simp only [State.ending, Held.withState, hpool]
    | ok u =>
      refine .inr ⟨rfl, c, deltas, ⟨tx, c.nFees, nd.getTime,
        nd.getPriority c.view tx nd.env.chainActive.height, toUInt32 nd.env.chainActive.height⟩,
        hbefore, rfl, ?_⟩
      simp only [State.ending, State.store, Held.withState, hpool]
      rfl

theorem acceptableInputs_pool : ∃ deltas,
    (s.acceptableInputs nd tx fLimitFree fRejectInsaneFee isDSTX).pool =
      { s.pool with mapDeltas := deltas } := by
  unfold Held.acceptableInputs State.acceptableInputs
  cases hbefore : checksBeforeFees nd s.state.pool tx false with
  | error r => exact ⟨_, rfl⟩
  | ok c =>
    dsimp only
    rw [ending_self]
    cases isDSTX with
    | true => exact ⟨_, rfl⟩
    | false => exact ⟨_, rfl⟩

end Accept

section Runs

variable {s : Held}

theorem Linked.acceptToMemoryPool (hl : Linked s.pool) (nd : Node) (tx : CTransaction)
    (fLimitFree fRejectInsaneFee ignoreFees : Bool) :
    Linked (s.acceptToMemoryPool nd tx fLimitFree fRejectInsaneFee ignoreFees).2.pool := by
  rcases acceptToMemoryPool_cases s nd tx fLimitFree fRejectInsaneFee ignoreFees with
    ⟨-, deltas, hpool⟩ | ⟨-, c, deltas, entry, hchecks, htx, hpool⟩
  · rw [hpool]
    exact hl.congr rfl rfl rfl
  · obtain ⟨hnodup, habsent, hfree⟩ := fresh_of_checksBeforeFees hchecks
    rw [hpool]
    refine Linked.addUnchecked (hl.congr rfl rfl rfl) (congrArg CTransaction.getHash htx) habsent
      ?_ (htx ▸ hnodup)
    rw [htx]
    exact hfree

theorem Linked.removeCoinbaseSpends {pool : CountedPool} (hl : Linked pool) (par : Params)
    (pcoins : CCoinsViewCache) (nMemPoolHeight : ℕ) :
    Part pool (CountedPool.removeCoinbaseSpends par pool pcoins nMemPoolHeight) :=
  hl.self_part.removeAll _

theorem Linked.step (hl : Linked s.pool) (call : Call) : Linked (step s call).pool := by
  cases call with
  | acceptToMemoryPool nd tx fLimitFree fRejectInsaneFee ignoreFees =>
    exact hl.acceptToMemoryPool nd tx fLimitFree fRejectInsaneFee ignoreFees
  | acceptableInputs nd tx fLimitFree fRejectInsaneFee isDSTX =>
    obtain ⟨deltas, hpool⟩ := acceptableInputs_pool s nd tx fLimitFree fRejectInsaneFee isDSTX
    rw [Mempool.step, hpool]
    exact hl.congr rfl rfl rfl
  | prioritiseTransaction nd hash dPriorityDelta nFeeDelta => exact hl.congr rfl rfl rfl
  | clearPrioritisation hash => exact hl.congr rfl rfl rfl
  | remove tx fRecursive => exact (hl.remove_part tx fRecursive).linked
  | removeConflicts tx => exact (hl.self_part.removeConflicts tx).linked
  | removeForBlock vtx => exact (hl.self_part.removeForBlock vtx).linked
  | removeCoinbaseSpends par pcoins nMemPoolHeight =>
    exact (hl.removeCoinbaseSpends par pcoins nMemPoolHeight).linked
  | clear => exact linked_empty _ rfl rfl rfl
  | addTransactionsUpdated n => exact hl.congr rfl rfl rfl

/-- What the code relies on of the pool. -/
structure Sound (pool : CountedPool) : Prop where
  hash : ∀ h e, pool.mapTx.find h = some e → e.tx.getHash = h
  once : ∀ h h' e e' p, pool.mapTx.find h = some e → pool.mapTx.find h' = some e' →
    p ∈ e.tx.prevouts → p ∈ e'.tx.prevouts → h = h'
  spender : ∀ p tx i, pool.mapNextTx.find p = some (tx, i) ↔
    ∃ e, pool.mapTx.find tx.getHash = some e ∧ e.tx = tx ∧ tx.prevouts[i]? = some p
  total : pool.totalTxSize = BitVec.ofInt 64 (pool.mapTx.sum fun e => e.getTxSize)

theorem Linked.sound {pool : CountedPool} (hl : Linked pool) : Sound pool where
  hash _ _ he := hl.hash he
  once _ _ _ _ _ he he' hp hp' := hl.eq_of_prevout he he' hp hp'
  spender p tx i := by
    rw [CTransaction.prevouts, List.getElem?_map]
    constructor
    · intro hmark
      obtain ⟨e, txin, he, htx, hin, hprev⟩ := hl.marks hmark
      exact ⟨e, he, htx, by rw [hin, Option.map_some, hprev]⟩
    · intro hspent
      obtain ⟨e, he, rfl, hin⟩ := hspent
      obtain ⟨txin, hin', rfl⟩ := Option.map_eq_some_iff.mp hin
      exact hl.marked he hin'
  total := hl.total

theorem run_linked (calls : List Call) : Linked (run step Held.start calls).pool := by
  have hstart : Linked Held.start.pool := linked_empty _ rfl rfl rfl
  exact Runs.run_preserves (I := fun s : Held => Linked s.pool) (fun _ call hl => hl.step call)
    hstart calls

/-- However its functions are called, the pool spends no output twice, `mapNextTx` has just the
inputs of its transactions, and the total is that of their sizes. -/
theorem run_sound (calls : List Call) : Sound (run step Held.start calls).pool :=
  (run_linked calls).sound

/-- After a block the pool has nothing left that spends what the block spends. -/
theorem removeForBlock_apart (calls : List Call) (vtx : List CTransaction) :
    SpendsApart (step (run step Held.start calls) (.removeForBlock vtx)).pool.toCTxMemPool vtx :=
  foldl_removeMined_apart (r := ([], (run step Held.start calls).pool)) (run_linked calls)

end Runs

section Mature

variable {pool : CountedPool} (par : Params) (pcoins : CCoinsViewCache) (nMemPoolHeight : ℕ)

theorem Linked.find_removeAll {txs : List CTransaction} (hl : Linked pool) {tx : CTransaction}
    (htx : tx ∈ txs) :
    (txs.foldl (fun pool tx => (pool.remove tx true).2) pool).mapTx.find tx.getHash = none := by
  induction txs generalizing pool with
  | nil => cases htx
  | cons t txs ih =>
    have hnext := (hl.remove_part t true).linked
    rcases List.mem_cons.mp htx with rfl | htx
    · refine find_eq_none_of_not_has fun hhas => ?_
      obtain ⟨e, he⟩ := has_iff.mp hhas
      have hleft := hl.find_remove.mp ((hnext.self_part.removeAll txs).part he)
      exact hleft.2 (.self hleft.1)
    · exact ih hnext htx

/-- No transaction of the pool spends coins that were too young beside `old`. -/
def MatureBeside (old pool : CTxMemPool) : Prop :=
  ∀ h e, pool.mapTx.find h = some e → ∀ txin ∈ e.tx.vin,
    CountedPool.spendsImmature par old pcoins nMemPoolHeight txin = false

theorem Linked.matureBeside (hl : Linked pool) :
    MatureBeside par pcoins nMemPoolHeight pool.toCTxMemPool
      (CountedPool.removeCoinbaseSpends par pool pcoins nMemPoolHeight).toCTxMemPool := by
  intro h e he txin hin
  refine Bool.eq_false_iff.mpr fun hyoung => ?_
  have hold := (hl.removeCoinbaseSpends par pcoins nMemPoolHeight).part he
  have hgone := hl.find_removeAll (CountedPool.mem_transactionsToRemove hold hin hyoung)
  rw [hl.hash hold] at hgone
  cases he.symm.trans hgone

/-- After a reorganisation no transaction is left that spends coins that became too young. -/
theorem removeCoinbaseSpends_mature (calls : List Call) :
    MatureBeside par pcoins nMemPoolHeight (run step Held.start calls).pool.toCTxMemPool
      (step (run step Held.start calls)
        (.removeCoinbaseSpends par pcoins nMemPoolHeight)).pool.toCTxMemPool :=
  (run_linked calls).matureBeside par pcoins nMemPoolHeight

end Mature

end Scrypta.Mempool
