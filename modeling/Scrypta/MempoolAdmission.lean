import Mathlib.Data.Finset.Insert
import Scrypta.ConnectBlock
import Scrypta.FeeRates

/-! The two ways in which a transaction is tried against the memory pool: `AcceptToMemoryPool`
stores it, and `AcceptableInputs` only has to answer. A mixing transaction is prioritised on either
way, before the last checks. -/

namespace Scrypta.Mempool

open Validation
open FeeEstimates (CFeeRate Deltas Double allowFree getMinRelayFee)

def maxTxSigops : ℕ := maxBlockSigops / 5

/-- The height of coins that are only in the pool. -/
def mempoolHeight : ℤ := 0x7fffffff

def scriptVerifyStrictenc : ℕ := 2
def scriptVerifyNulldummy : ℕ := 16
def scriptVerifyMinimaldata : ℕ := 64
def scriptVerifyDiscourageUpgradableNops : ℕ := 128

def mandatoryScriptVerifyFlags : ℕ := scriptVerifyP2SH

def standardScriptVerifyFlags : ℕ :=
  mandatoryScriptVerifyFlags ||| scriptVerifyDersig ||| scriptVerifyStrictenc |||
    scriptVerifyMinimaldata ||| scriptVerifyNulldummy ||| scriptVerifyDiscourageUpgradableNops

structure CTxMemPoolEntry where
  tx : CTransaction
  nFee : CAmount
  nTime : ℤ
  dPriority : Double
  nHeight : ℕ

/-- The transactions, the transaction and the input that spends an output, and what was set by
hand. -/
structure CTxMemPool where
  mapTx : Dict Uint256 CTxMemPoolEntry
  mapNextTx : Dict COutPoint (CTransaction × ℕ)
  mapDeltas : Deltas

/-- The statics of the limit on free transactions. -/
structure FreeLimiter where
  dFreeCount : Double
  nLastTime : ℤ

/-- The pool; each of the two functions has statics of its own. -/
structure State where
  pool : CTxMemPool
  acceptLimiter : FreeLimiter
  inputsLimiter : FreeLimiter

/-- What the calls read of the node, with the functions that are not part of this development: the
rules of standard transactions and the arithmetic of doubles. `isStandardTx` answers with the reason
when a transaction is not standard. -/
structure Node where
  par : Params
  orc : Oracles
  env : Env
  pcoinsTip : CCoinsViewCache
  mapObfuscationBroadcastTxes : Finset Uint256
  minRelayTxFee : CFeeRate
  requireStandard : Bool
  relayPriority : Bool
  getTime : ℤ
  isStandardTx : CTransaction → Option String
  areInputsStandard : CTransaction → CCoinsViewCache → Bool
  getPriority : CCoinsViewCache → CTransaction → ℤ → Double
  addDouble : Double → Double → Double
  doubleOfSize : ℕ → Double
  decay : Double → ℤ → Double
  atFreeLimit : Double → Bool

/-- What is known of a transaction once its fees are looked at. -/
structure Candidate where
  view : CCoinsViewCache
  nFees : CAmount

/-- Why a transaction is not accepted; `missingInputs` is the flag for the caller. -/
inductive Reject
  | refused (r : Refusal)
  | missingInputs
  deriving DecidableEq, Repr

namespace CTxMemPool

def prioritiseTransaction (pool : CTxMemPool) (nd : Node) (hash : Uint256) (dPriorityDelta : Double)
    (nFeeDelta : CAmount) : CTxMemPool :=
  let deltas := (pool.mapDeltas hash).getD (0, 0)
  { pool with mapDeltas := fun h =>
      if h = hash then some (nd.addDouble deltas.1 dPriorityDelta, deltas.2 + nFeeDelta)
      else pool.mapDeltas h }

def addUnchecked (pool : CTxMemPool) (hash : Uint256) (entry : CTxMemPoolEntry) : CTxMemPool :=
  { pool with
    mapTx := pool.mapTx.set hash entry
    mapNextTx := entry.tx.vin.zipIdx.foldl (fun next i => next.set i.1.prevout (entry.tx, i.2))
      pool.mapNextTx }

end CTxMemPool

section Checks

variable (nd : Node) (pool : CTxMemPool) (tx : CTransaction)

/-- `CCoinsViewMemPool::GetCoins`: a transaction of the pool comes before the coins database. -/
def getCoins (txid : Uint256) : Option CCoins :=
  match pool.mapTx.find txid with
  | some entry => some (CCoins.fromTx entry.tx mempoolHeight)
  | none => nd.pcoinsTip.unspent txid

def haveCoins (txid : Uint256) : Bool :=
  (getCoins nd pool txid).any fun coins => !coins.vout.isEmpty

/-- The view once its backend is gone: the coins of the inputs. -/
def fetchInputs : CCoinsViewCache where
  hashBlock := nd.pcoinsTip.hashBlock
  cacheCoins := tx.vin.foldl (fun cache txin =>
    match getCoins nd pool txin.prevout.hash with
    | some coins => cache.insert txin.prevout.hash coins
    | none => cache) Dict.empty

/-- The checks of the transaction alone. Those that only `AcceptToMemoryPool` makes are made under
`full`, here and below. -/
def checkLoose (full : Bool) : Except Refusal Unit := do
  checkTransaction nd.par tx
  require (!tx.isCoinBase) (dos 100 "coinbase")
  whenever full (require (!tx.isCoinStake) (dos 100 "coinstake"))
  whenever (full && nd.requireStandard) (match nd.isStandardTx tx with
    | none => .ok ()
    | some reason => .error (dos 0 reason))

def checkConflicts : Except Refusal Unit := do
  require (!pool.mapTx.count tx.getHash) .failed
  require (tx.vin.all fun txin => (nd.env.mapLockedInputs.find txin.prevout).all (· == tx.getHash))
    (dos 0 "tx-lock-conflict")
  require (tx.vin.all fun txin => !pool.mapNextTx.count txin.prevout) .failed

def checkInputsExist : Except Reject Unit :=
  if haveCoins nd pool tx.getHash then .error (.refused .failed)
  else if tx.vin.all fun txin => haveCoins nd pool txin.prevout.hash then .ok ()
  else .error .missingInputs

/-- The checks of the inputs before the fees. -/
def checkView (full : Bool) (view : CCoinsViewCache) : Except Refusal Candidate := do
  require (view.haveInputs tx) (invalid "bad-txns-inputs-spent")
  whenever (full && nd.requireStandard) (require (nd.areInputsStandard tx view) .failed)
  require (tx.getLegacySigOpCount + getP2SHSigOpCount tx view ≤ maxTxSigops)
    (dos 0 "bad-txns-too-many-sigops")
  let nValueOut ← present tx.getValueOut
  pure ⟨view, view.getValueIn tx - nValueOut⟩

def checksBeforeFees (full : Bool) : Except Reject Candidate := do
  (checkLoose nd tx full).mapError .refused
  (checkConflicts nd pool tx).mapError .refused
  checkInputsExist nd pool tx
  (checkView nd tx full (fetchInputs nd pool tx)).mapError .refused

def checkFees (limiter : FreeLimiter) (fLimitFree : Bool) (c : Candidate) :
    Except Refusal Unit × FreeLimiter :=
  let nSize := tx.getSerializeSize
  let txMinFee := getMinRelayFee nd.par pool.mapDeltas nd.minRelayTxFee tx.getHash nSize true
  if fLimitFree && c.nFees < txMinFee then (.error (dos 0 "insufficient fee"), limiter)
  else if nd.relayPriority && c.nFees < nd.minRelayTxFee.getFee nSize &&
      !allowFree (nd.getPriority c.view tx (nd.env.chainActive.height + 1)) then
    (.error (dos 0 "insufficient priority"), limiter)
  else if fLimitFree && c.nFees < nd.minRelayTxFee.getFee nSize then
    let dFreeCount := nd.decay limiter.dFreeCount (nd.getTime - limiter.nLastTime)
    if nd.atFreeLimit dFreeCount then
      (.error (dos 0 "rate limited free transaction"), ⟨dFreeCount, nd.getTime⟩)
    else (.ok (), ⟨nd.addDouble dFreeCount (nd.doubleOfSize nSize), nd.getTime⟩)
  else (.ok (), limiter)

/-- `CheckInputs` without a vector for the script checks: they are made at once. -/
def checkInputsNow (view : CCoinsViewCache) (fScriptChecks : Bool) (flags : ℕ) :
    Except Refusal Unit := do
  let _ ← checkInputs nd.par { nd.orc with scriptCheckThreads := false } nd.env tx view
    fScriptChecks flags
  pure ()

def checksAfterFees (full fRejectInsaneFee : Bool) (c : Candidate) : Except Refusal Unit := do
  require (!(fRejectInsaneFee && nd.minRelayTxFee.getFee tx.getSerializeSize * 10000 < c.nFees))
    .failed
  checkInputsNow nd tx c.view full standardScriptVerifyFlags
  whenever full (checkInputsNow nd tx c.view true mandatoryScriptVerifyFlags)

end Checks

namespace State

variable (nd : Node) (s : State) (tx : CTransaction)

/-- 1000 is 0x408f400000000000 as a double. The pool is always `mempool`. -/
def prioritise : State :=
  { s with pool := s.pool.prioritiseTransaction nd tx.getHash 0x408f400000000000 (coin / 10) }

def store (c : Candidate) : State :=
  let entry : CTxMemPoolEntry :=
    { tx := tx
      nFee := c.nFees
      nTime := nd.getTime
      dPriority := nd.getPriority c.view tx nd.env.chainActive.height
      nHeight := toUInt32 nd.env.chainActive.height }
  { s with pool := s.pool.addUnchecked tx.getHash entry }

/-- The fees of a transaction that is not a mixing transaction. -/
def acceptFees (fLimitFree : Bool) (c : Candidate) : Except Refusal Unit × State :=
  let (result, limiter) := checkFees nd s.pool tx s.acceptLimiter fLimitFree c
  (result, { s with acceptLimiter := limiter })

def inputsFees (fLimitFree : Bool) (c : Candidate) : Except Refusal Unit × State :=
  let (result, limiter) := checkFees nd s.pool tx s.inputsLimiter fLimitFree c
  (result, { s with inputsLimiter := limiter })

/-- How a call ends once the last checks have answered. -/
def ending (checks : Except Refusal Unit) (refused accepted : State) : Except Reject Unit × State :=
  match checks with
  | .error r => (.error (.refused r), refused)
  | .ok () => (.ok (), accepted)

/-- The wallets that hear of the transaction are not part of the state. -/
def acceptToMemoryPool (fLimitFree fRejectInsaneFee ignoreFees : Bool) :
    Except Reject Unit × State :=
  match checksBeforeFees nd s.pool tx true with
  | .error r => (.error r, s)
  | .ok c =>
    let (fees, s) :=
      if tx.getHash ∈ nd.mapObfuscationBroadcastTxes then (.ok (), s.prioritise nd tx)
      else if !ignoreFees then s.acceptFees nd tx fLimitFree c
      else (.ok (), s)
    ending (do fees; checksAfterFees nd tx true fRejectInsaneFee c) s (s.store nd tx c)

def acceptableInputs (fLimitFree fRejectInsaneFee isDSTX : Bool) : Except Reject Unit × State :=
  match checksBeforeFees nd s.pool tx false with
  | .error r => (.error r, s)
  | .ok c =>
    let (fees, s) :=
      if isDSTX then (.ok (), s.prioritise nd tx) else s.inputsFees nd tx fLimitFree c
    ending (do fees; checksAfterFees nd tx false fRejectInsaneFee c) s s

end State

section Full

open Outcome (bind_eq_ok mapError_eq_ok)

variable {nd : Node} {pool : CTxMemPool} {tx : CTransaction} {c : Candidate}

theorem checkLoose_of_full (h : checkLoose nd tx true = .ok ()) :
    checkLoose nd tx false = .ok () := by
  simp only [checkLoose, bind_ok, whenever_ok] at h ⊢
  obtain ⟨_, hcheck, _, hcoinbase, -⟩ := h
  exact ⟨_, hcheck, _, hcoinbase, (), fun h => absurd h Bool.false_ne_true,
    fun h => absurd h Bool.false_ne_true⟩

theorem checkView_of_full {view : CCoinsViewCache} (h : checkView nd tx true view = .ok c) :
    checkView nd tx false view = .ok c := by
  simp only [checkView, bind_ok, whenever_ok] at h ⊢
  obtain ⟨_, hhave, -, -, hrest⟩ := h
  exact ⟨_, hhave, (), fun h => absurd h Bool.false_ne_true, hrest⟩

theorem checksBeforeFees_of_full (h : checksBeforeFees nd pool tx true = .ok c) :
    checksBeforeFees nd pool tx false = .ok c := by
  simp only [checksBeforeFees, bind_eq_ok, mapError_eq_ok] at h ⊢
  obtain ⟨_, hloose, _, hconflicts, _, hexist, hview⟩ := h
  exact ⟨_, checkLoose_of_full hloose, _, hconflicts, _, hexist, checkView_of_full hview⟩

/-- Without the scripts `CheckInputs` makes the same checks and no others. -/
theorem checkInputsNow_of_scripts {view : CCoinsViewCache} {flags : ℕ}
    (h : checkInputsNow nd tx view true flags = .ok ()) (flags' : ℕ) :
    checkInputsNow nd tx view false flags' = .ok () := by
  simp only [checkInputsNow, bind_ok] at h ⊢
  obtain ⟨b, h, -⟩ := h
  refine ⟨true, ?_, rfl⟩
  unfold checkInputs at h ⊢
  by_cases hcoinbase : tx.isCoinBase = true
  · rw [if_pos hcoinbase]
  · rw [if_neg hcoinbase] at h ⊢
    simp only [bind_ok] at h ⊢
    obtain ⟨_, hhave, pindexPrev, hprev, nValueIn, hvalues, _, hfee, -⟩ := h
    exact ⟨_, hhave, pindexPrev, hprev, nValueIn, hvalues, _, hfee, rfl⟩

theorem checksAfterFees_of_full {fRejectInsaneFee : Bool}
    (h : checksAfterFees nd tx true fRejectInsaneFee c = .ok ()) :
    checksAfterFees nd tx false fRejectInsaneFee c = .ok () := by
  simp only [checksAfterFees, bind_ok, whenever_ok] at h ⊢
  obtain ⟨_, hfee, _, hinputs, -⟩ := h
  exact ⟨_, hfee, _, checkInputsNow_of_scripts hinputs _, fun h => absurd h Bool.false_ne_true⟩

end Full

section Traces

variable {nd : Node} {s : State} {tx : CTransaction} {c : Candidate}

/-- A mixing transaction's fee is raised, whatever the doubles do. -/
theorem prioritise_ne : s.prioritise nd tx ≠ s := by
  intro h
  have hdeltas := congrFun (congrArg (fun s : State => s.pool.mapDeltas) h) tx.getHash
  simp only [State.prioritise, CTxMemPool.prioritiseTransaction, if_pos] at hdeltas
  cases hold : s.pool.mapDeltas tx.getHash with
  | none =>
    rw [hold] at hdeltas
    cases hdeltas
  | some deltas =>
    rw [hold] at hdeltas
    have hfee : deltas.2 + coin / 10 = deltas.2 := congrArg Prod.snd (Option.some.inj hdeltas)
    exact absurd (add_eq_left.mp hfee) (by decide)

/-- Without a limit on free transactions the statics stay, and the answer is not theirs. -/
theorem checkFees_unlimited (pool : CTxMemPool) (limiter limiter' : FreeLimiter) :
    checkFees nd pool tx limiter false c =
      ((checkFees nd pool tx limiter' false c).1, limiter) := by
  unfold checkFees
  simp only [Bool.false_and, Bool.false_eq_true, if_false]
  split
  · rfl
  · rfl

theorem acceptFees_unlimited :
    s.acceptFees nd tx false c = ((checkFees nd s.pool tx s.inputsLimiter false c).1, s) := by
  rw [State.acceptFees, checkFees_unlimited s.pool s.acceptLimiter s.inputsLimiter]

theorem inputsFees_unlimited :
    s.inputsFees nd tx false c = ((checkFees nd s.pool tx s.inputsLimiter false c).1, s) := by
  rw [State.inputsFees, checkFees_unlimited s.pool s.inputsLimiter s.inputsLimiter]

theorem ending_fst {checks : Except Refusal Unit} {refused accepted : State} :
    (State.ending checks refused accepted).1 = .ok () ↔ checks = .ok () := by
  cases checks with
  | error r => exact iff_of_false (fun h => by cases h) (fun h => by cases h)
  | ok u => exact iff_of_true rfl rfl

theorem ending_of_refused {checks : Except Refusal Unit} {refused accepted : State}
    (h : checks ≠ .ok ()) : (State.ending checks refused accepted).2 = refused := by
  cases checks with
  | error r => rfl
  | ok u => exact absurd rfl h

theorem ending_self (checks : Except Refusal Unit) (s : State) :
    (State.ending checks s s).2 = s := by
  cases checks with
  | error r => rfl
  | ok u => rfl

variable {fRejectInsaneFee ignoreFees isDSTX d : Bool}

/-- A refusal leaves no trace unless it comes after a mixing transaction was prioritised. -/
theorem refused_iff :
    ((s.acceptToMemoryPool nd tx false fRejectInsaneFee ignoreFees).1 ≠ .ok () →
      (s.acceptToMemoryPool nd tx false fRejectInsaneFee ignoreFees).2 = s) ↔
    (tx.getHash ∈ nd.mapObfuscationBroadcastTxes →
      ∀ c, checksBeforeFees nd s.pool tx true = .ok c →
        checksAfterFees nd tx true fRejectInsaneFee c = .ok ()) := by
  unfold State.acceptToMemoryPool
  cases hbefore : checksBeforeFees nd s.pool tx true with
  | error r => exact iff_of_true (fun _ => rfl) (fun _ c hc => by cases hc)
  | ok c =>
    dsimp only
    by_cases hmixing : tx.getHash ∈ nd.mapObfuscationBroadcastTxes
    · rw [if_pos hmixing, Ne, ending_fst]
      refine ⟨fun h _ c' hc => ?_, fun h hrefused => absurd (h hmixing c rfl) hrefused⟩
      rw [← Except.ok.inj hc]
      by_contra hrefused
      exact prioritise_ne ((ending_of_refused hrefused).symm.trans (h hrefused))
    · rw [if_neg hmixing, acceptFees_unlimited]
      refine iff_of_true (fun h => ?_) fun h => absurd h hmixing
      -- with or without a look at the fees the state is still the first one
      cases ignoreFees with
      | true => exact ending_of_refused (mt ending_fst.mpr h)
      | false => exact ending_of_refused (mt ending_fst.mpr h)

/-- A test leaves no trace unless it is one of a mixing transaction that comes to the fees. -/
theorem tested_iff :
    (s.acceptableInputs nd tx false fRejectInsaneFee isDSTX).2 = s ↔
      (isDSTX = true → ∀ c, checksBeforeFees nd s.pool tx false ≠ .ok c) := by
  unfold State.acceptableInputs
  cases hbefore : checksBeforeFees nd s.pool tx false with
  | error r => exact iff_of_true rfl fun _ c hc => by cases hc
  | ok c =>
    dsimp only
    cases isDSTX with
    | true =>
      rw [if_pos rfl, ending_self]
      exact iff_of_false prioritise_ne fun h => h rfl c rfl
    | false =>
      rw [if_neg Bool.false_ne_true, inputsFees_unlimited, ending_self]
      exact iff_of_true rfl fun h => absurd h Bool.false_ne_true

/-- What is accepted is found acceptable. -/
theorem acceptable_of_accepted (hmixing : tx.getHash ∉ nd.mapObfuscationBroadcastTxes)
    (h : (s.acceptToMemoryPool nd tx false fRejectInsaneFee d).1 = .ok ()) :
    (s.acceptableInputs nd tx false fRejectInsaneFee d).1 = .ok () := by
  unfold State.acceptToMemoryPool at h
  unfold State.acceptableInputs
  cases hbefore : checksBeforeFees nd s.pool tx true with
  | error r =>
    rw [hbefore] at h
    cases h
  | ok c =>
    rw [hbefore] at h
    rw [checksBeforeFees_of_full hbefore]
    dsimp only at h ⊢
    rw [if_neg hmixing, ending_fst, acceptFees_unlimited, bind_ok] at h
    obtain ⟨u, hfees, hafter⟩ := h
    rw [ending_fst, inputsFees_unlimited, bind_ok]
    refine ⟨u, ?_, checksAfterFees_of_full hafter⟩
    cases d with
    | true => rfl
    | false => exact hfees

/-- What is asked of a trial of a transaction. -/
structure LeavesNoTrace (nd : Node) (s : State) (tx : CTransaction) (fRejectInsaneFee d : Bool) :
    Prop where
  refused : (s.acceptToMemoryPool nd tx false fRejectInsaneFee d).1 ≠ .ok () →
    (s.acceptToMemoryPool nd tx false fRejectInsaneFee d).2 = s
  tested : (s.acceptableInputs nd tx false fRejectInsaneFee d).2 = s
  acceptable : tx.getHash ∉ nd.mapObfuscationBroadcastTxes →
    (s.acceptToMemoryPool nd tx false fRejectInsaneFee d).1 = .ok () →
    (s.acceptableInputs nd tx false fRejectInsaneFee d).1 = .ok ()

/-- No trace is left when a mixing transaction that comes to the fees in the first function is not
refused after them, and does not come to them in a test of it. -/
theorem leavesNoTrace_iff (nd : Node) (s : State) (tx : CTransaction) (fRejectInsaneFee d : Bool) :
    LeavesNoTrace nd s tx fRejectInsaneFee d ↔
      (tx.getHash ∈ nd.mapObfuscationBroadcastTxes →
        ∀ c, checksBeforeFees nd s.pool tx true = .ok c →
          checksAfterFees nd tx true fRejectInsaneFee c = .ok ()) ∧
      (d = true → ∀ c, checksBeforeFees nd s.pool tx false ≠ .ok c) :=
  ⟨fun h => ⟨refused_iff.mp h.refused, tested_iff.mp h.tested⟩,
    fun h => ⟨refused_iff.mpr h.1, tested_iff.mpr h.2, acceptable_of_accepted⟩⟩

/-- A node with one coin, whose rules of standard transactions and scripts accept everything. -/
def plainNode : Node where
  par := mainParams
  orc := plainOracles
  env := plainEnv (plainChain 10) Dict.empty Dict.empty
  pcoinsTip := ⟨(plainChain 10).getBlockHash,
    Dict.empty.set 9 { vout := [⟨coin, [0x51], 0⟩], nHeight := 5 }⟩
  mapObfuscationBroadcastTxes := ∅
  minRelayTxFee := 10000
  requireStandard := true
  relayPriority := true
  getTime := 1600000000
  isStandardTx _ := none
  areInputsStandard _ _ := true
  getPriority _ _ _ := 0
  addDouble a b := if a = 0 then b else a
  doubleOfSize _ := 0
  decay d _ := d
  atFreeLimit _ := false

def emptyState : State where
  pool := ⟨Dict.empty, Dict.empty, fun _ => none⟩
  acceptLimiter := ⟨0, 0⟩
  inputsLimiter := ⟨0, 0⟩

/-- The test of a mixing transaction finds it acceptable and raises its fee. -/
theorem tested_mixing_leaves_trace :
    ¬ LeavesNoTrace plainNode emptyState (spendOf 77 ⟨9, 0⟩ [⟨coin, [0x51], 0⟩]) false true := by
  intro h
  have hdeltas : (emptyState.acceptableInputs plainNode (spendOf 77 ⟨9, 0⟩ [⟨coin, [0x51], 0⟩])
      false false true).2.pool.mapDeltas 77 = some (0x408f400000000000, coin / 10) := by
    decide
  rw [h.tested] at hdeltas
  cases hdeltas

end Traces

end Scrypta.Mempool
