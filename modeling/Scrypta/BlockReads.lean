import Scrypta.BackedBlocks
import Scrypta.Ledger
import Scrypta.Refusals

/-! Which places of a block and of the coins the checks of a block read. Two reads are not
covered by a check before them: the second transaction in `IsBlockPayeeValid`, and the staked
output in `CheckProofOfStake`. -/

namespace Scrypta.Validation

/-- Neither a read outside of a vector nor an assertion that fails. -/
def Refusal.Orderly (r : Refusal) : Prop := r ≠ .crashed

theorem orderly_dos (nDoS : ℕ) (strRejectReason : String) (corruptionIn : Bool) :
    (Refusal.dos nDoS strRejectReason corruptionIn).Orderly := fun h => nomatch h

theorem orderly_failed : Refusal.failed.Orderly := fun h => nomatch h

theorem orderly_noReturn : Refusal.noReturn.Orderly := fun h => nomatch h

section Refusals

variable {α β : Type} {P : Refusal → Prop}

theorem refuses_present_some {x : Option α} (h : x ≠ none) : Refuses P (present x) := by
  cases x with
  | none => exact absurd rfl h
  | some a => exact refuses_ok a

/-- The rest has to be looked at only for a result of the first part. -/
theorem Refuses.bind_of_ok {x : Except Refusal α} {f : α → Except Refusal β} (hx : Refuses P x)
    (hf : ∀ a, x = .ok a → Refuses P (f a)) : Refuses P (x >>= f) := by
  cases x with
  | error r => exact fun r' he => hx r' (congrArg Except.error (Except.error.inj he))
  | ok a => exact hf a rfl

theorem Refuses.require_bind {c : Bool} {r : Refusal} {f : Unit → Except Refusal β} (hr : P r)
    (hf : c = true → Refuses P (f ())) : Refuses P (require c r >>= f) :=
  (refuses_require hr).bind_of_ok fun _ h => hf (require_ok.mp h)

theorem bind_error {x : Except Refusal α} {f : α → Except Refusal β} {r : Refusal} :
    (x >>= f) = .error r ↔ x = .error r ∨ ∃ a, x = .ok a ∧ f a = .error r := by
  cases x with
  | error r => simp [Bind.bind, Except.bind]
  | ok a => simp [Bind.bind, Except.bind]

theorem require_error {c : Bool} {r r' : Refusal} :
    require c r = .error r' ↔ c = false ∧ r = r' := by
  cases c <;> simp [require]

theorem whenever_error {c : Bool} {check : Except Refusal Unit} {r : Refusal} :
    whenever c check = .error r ↔ c = true ∧ check = .error r := by
  cases c <;> simp [whenever]

theorem present_error {x : Option α} {r : Refusal} :
    present x = .error r ↔ x = none ∧ r = .crashed := by
  cases x <;> simp [present, eq_comm]

end Refusals

section CheckBlock

variable (par : Params) (orc : Oracles) (env : Env)

/-- A block of a coinbase alone comes to the payee check above the last proof-of-work block. -/
structure LacksPayingTransaction (block : CBlock) (fCheckMerkleRoot : Bool) : Prop where
  isSynced : env.isSynced = true
  downloaded : env.isInitialBlockDownload = false
  tip : env.chainActive.tip.isSome = true
  known : nHeightFor env block ≠ 0
  stakePhase : par.nLastPOWBlock < nHeightFor env block
  coinbase : ∃ cb, block.vtx = [cb] ∧ cb.isCoinBase = true
  proofOfWork : orc.checkProofOfWork block.getHash block.nBits = true
  time : block.getBlockTime ≤ env.adjustedTime + 7200
  merkleRoot : whenever fCheckMerkleRoot (checkMerkleRoot orc block) = .ok ()
  size : block.getSerializeSize ≤ maxBlockSize

variable {par orc env}

theorem orderly_checkOutputs (tx : CTransaction) (vout : List CTxOut) (nValueOut : CAmount) :
    Refuses Refusal.Orderly (checkOutputs par tx vout nValueOut) := by
  induction vout generalizing nValueOut with
  | nil => exact refuses_ok _
  | cons txout vout ih =>
    refine (refuses_require (orderly_dos _ _ _)).bind fun _ => ?_
    refine (refuses_require (orderly_dos _ _ _)).bind fun _ => ?_
    refine (refuses_require (orderly_dos _ _ _)).bind fun _ => ?_
    exact (refuses_require (orderly_dos _ _ _)).bind fun _ => ih _

theorem orderly_checkTransactions (vtx : List CTransaction) :
    Refuses Refusal.Orderly (checkTransactions par vtx) := by
  induction vtx with
  | nil => exact refuses_ok _
  | cons tx vtx ih =>
    refine Refuses.bind ?_ fun _ => ih
    refine (refuses_require (orderly_dos _ _ _)).bind fun _ => ?_
    refine (refuses_require (orderly_dos _ _ _)).bind fun _ => ?_
    refine (refuses_require (orderly_dos _ _ _)).bind fun _ => ?_
    refine (orderly_checkOutputs tx _ _).bind fun _ => ?_
    refine (refuses_require (orderly_dos _ _ _)).bind fun _ => ?_
    refine (refuses_require (orderly_dos _ _ _)).whenever.bind fun _ => ?_
    exact (refuses_require (orderly_dos _ _ _)).whenever

theorem isBlockPayeeValid_crashed {block : CBlock} {nBlockHeight : ℤ} :
    isBlockPayeeValid par env block nBlockHeight = .error .crashed ↔
      env.isSynced = true ∧ payingTransaction par block nBlockHeight = none := by
  unfold isBlockPayeeValid
  cases env.isSynced with
  | false => simp
  | true =>
    simp only [Bool.not_true, Bool.false_eq_true, if_false, true_and, bind_error, present_error,
      and_true, or_iff_left_iff_imp]
    rintro ⟨txNew, -, hrest⟩
    refine absurd rfl (Refuses.bind (P := Refusal.Orderly) ?_ (fun fBudget => ?_) _
      (bind_error.mpr hrest))
    · exact refuses_returned orderly_noReturn _
    · refine Refuses.ite ?_ ?_
      · exact (refuses_returned orderly_noReturn _).bind fun _ => refuses_pure _
      · exact (refuses_returned orderly_noReturn _).bind fun _ => refuses_pure _

theorem checkPayee_crashed {block : CBlock} :
    checkPayee par env block = .error .crashed ↔
      (env.chainActive.tip.isSome = true ∧ nHeightFor env block ≠ 0 ∧
        env.isInitialBlockDownload = false) ∧ env.isSynced = true ∧
        payingTransaction par block (nHeightFor env block) = none := by
  simp only [checkPayee, whenever_error, bind_error, require_error, dos, isBlockPayeeValid_crashed,
    Bool.and_eq_true, bne_iff_ne, Bool.not_eq_true', reduceCtorEq, and_false, exists_false,
    or_false, and_assoc]

theorem payingTransaction_eq_none {block : CBlock} {nBlockHeight : ℤ} {cb : CTransaction}
    {rest : List CTransaction} (hvtx : block.vtx = cb :: rest) :
    payingTransaction par block nBlockHeight = none ↔
      par.nLastPOWBlock < nBlockHeight ∧ rest = [] := by
  rw [payingTransaction, hvtx]
  split
  · next h => simp [h]
  · next h => simp [h]

theorem isProofOfStake_singleton {block : CBlock} {cb : CTransaction} (hvtx : block.vtx = [cb]) :
    block.isProofOfStake = false := by
  rw [CBlock.isProofOfStake, hvtx]

theorem respectsLocks_of_isCoinBase {tx : CTransaction} (h : tx.isCoinBase = true) :
    respectsLocks env tx = true := by
  rw [respectsLocks, h, Bool.true_or]

/-- `CheckBlock` reads outside of the block only for the second transaction of a block that has
one. -/
theorem checkBlock_crashed {block : CBlock} {fCheckMerkleRoot : Bool} :
    checkBlock par orc env block fCheckMerkleRoot = .error .crashed ↔
      LacksPayingTransaction par orc env block fCheckMerkleRoot := by
  have htransactions : checkTransactions par block.vtx ≠ .error .crashed := fun h =>
    orderly_checkTransactions _ _ h rfl
  have hmerkle : checkMerkleRoot orc block ≠ .error .crashed := by
    simp [checkMerkleRoot, bind_error, require_error]
  simp only [checkBlock, checkStakeShape, bind_error, require_error, whenever_error, require_ok,
    whenever_ok, bind_ok, htransactions, hmerkle, dos, invalid, reduceCtorEq, and_false,
    exists_false, or_false, false_or, checkPayee_crashed, exists_const]
  constructor
  · rintro ⟨hpow, htime, hroot, hsize, hfirst, -, -, -, ⟨htip, hknown, hdownload⟩, hsynced, hnone⟩
    cases hvtx : block.vtx with
    | nil => simp [hvtx] at hfirst
    | cons cb rest =>
      obtain ⟨hphase, rfl⟩ := (payingTransaction_eq_none hvtx).mp hnone
      have hstake := isProofOfStake_singleton hvtx
      simp only [CBlock.isProofOfWork, hstake, Bool.not_false, Bool.not_true, Bool.false_or,
        Bool.false_eq_true, if_false, decide_eq_true_eq] at hpow htime
      simp only [Bool.and_eq_true, decide_eq_true_eq] at hsize
      exact {
        isSynced := hsynced
        downloaded := hdownload
        tip := htip
        known := hknown
        stakePhase := hphase
        coinbase := ⟨cb, hvtx, by simpa [hvtx] using hfirst⟩
        proofOfWork := hpow
        time := htime
        merkleRoot := whenever_ok.mpr hroot
        size := hsize.2 }
  · intro h
    obtain ⟨cb, hvtx, hcb⟩ := h.coinbase
    have hstake := isProofOfStake_singleton hvtx
    have hnone := (payingTransaction_eq_none hvtx).mpr ⟨h.stakePhase, rfl⟩
    refine ⟨?_, ?_, whenever_ok.mp h.merkleRoot, ?_, ?_, ?_, ?_, ?_,
      ⟨h.tip, h.known, h.downloaded⟩, h.isSynced, hnone⟩
    · rw [h.proofOfWork, Bool.or_true]
    · simpa [hstake] using h.time
    · simp only [hvtx, Bool.and_eq_true, decide_eq_true_eq]
      exact ⟨⟨rfl, Nat.le_add_left 1 999999⟩, h.size⟩
    · simpa [hvtx] using hcb
    · simp [hvtx]
    · simp [hstake]
    · simp [hvtx, respectsLocks_of_isCoinBase hcb]

end CheckBlock

/-! What `ConnectBlock` does after `CheckBlock`. -/

section ConnectBlock

variable {par : Params} {orc : Oracles} {env : Env}

theorem checkOutputs_total {tx : CTransaction} {vout : List CTxOut} {nValueOut : CAmount}
    (hmoney : par.nMaxMoneyOut ≤ maxAmount)
    (h : checkOutputs par tx vout nValueOut = .ok ()) :
    ∃ nTotal, vout.foldlM (fun nValueOut o =>
      if o.nValue < 0 then none
      else if maxAmount < nValueOut + o.nValue then none
      else some (nValueOut + o.nValue)) nValueOut = some nTotal := by
  induction vout generalizing nValueOut with
  | nil => exact ⟨nValueOut, rfl⟩
  | cons txout vout ih =>
    simp only [checkOutputs, bind_ok, require_ok, decide_eq_true_eq, exists_const] at h
    obtain ⟨-, hnonneg, -, hrange, hrest⟩ := h
    simp only [moneyRange, Bool.and_eq_true, decide_eq_true_eq] at hrange
    have hle : nValueOut + txout.nValue ≤ maxAmount := hrange.2.trans hmoney
    rw [List.foldlM_cons, if_neg (not_lt.mpr hnonneg), if_neg (not_lt.mpr hle)]
    exact ih hrest

theorem getValueOut_of_checkTransaction {tx : CTransaction}
    (hmoney : par.nMaxMoneyOut ≤ maxAmount) (h : checkTransaction par tx = .ok ()) :
    tx.getValueOut ≠ none := by
  simp only [checkTransaction, bind_ok] at h
  obtain ⟨_, -, _, -, _, -, _, hout, -⟩ := h
  obtain ⟨nTotal, htotal⟩ := checkOutputs_total hmoney hout
  exact Option.ne_none_iff_exists'.mpr ⟨nTotal, htotal⟩

theorem nodup_of_checkTransaction {tx : CTransaction} (h : checkTransaction par tx = .ok ()) :
    tx.prevouts.Nodup := by
  simp only [checkTransaction, bind_ok, require_ok, decide_eq_true_eq] at h
  obtain ⟨_, -, _, -, _, -, _, -, _, hnodup, -⟩ := h
  exact hnodup

/-- Different outputs that are all there can be spent one after the other. -/
theorem spendInputs_isSome {view : CCoinsViewCache} {vin : List CTxIn}
    (hnodup : (vin.map CTxIn.prevout).Nodup)
    (hhave : ∀ txin ∈ vin, view.haveInput txin.prevout = true) :
    ∃ r, view.spendInputs vin = some r := by
  induction vin generalizing view with
  | nil => exact ⟨_, rfl⟩
  | cons txin vin ih =>
    obtain ⟨hfresh, hnodup⟩ := List.nodup_cons.mp hnodup
    have hfirst := hhave txin List.mem_cons_self
    rw [CCoinsViewCache.haveInput_eq] at hfirst
    obtain ⟨o, ho⟩ := Option.isSome_iff_exists.mp hfirst
    obtain ⟨⟨coins, undo⟩, hspend⟩ := CCoins.spend_isSome ho
    have hspends := CCoinsViewCache.spends_one hspend
    have hrest : ∀ other ∈ vin,
        (view.putCoins txin.prevout.hash coins).haveInput other.prevout = true := by
      intro other hother
      have hne : ¬∃ p ∈ [txin.prevout], p.Names other.prevout.hash other.prevout.n.toNat := by
        rintro ⟨p, hp, hhash, hn⟩
        obtain rfl := List.mem_singleton.mp hp
        refine hfresh (List.mem_map.mpr ⟨other, hother, ?_⟩)
        cases hp' : other.prevout
        cases hq : txin.prevout
        simp only [hp', hq] at hhash hn
        simp [hhash, BitVec.eq_of_toNat_eq hn]
      rw [CCoinsViewCache.haveInput_eq, hspends.output, if_neg hne, ← CCoinsViewCache.haveInput_eq]
      exact hhave other (List.mem_cons_of_mem _ hother)
    obtain ⟨⟨view', undos⟩, hvin⟩ := ih hnodup hrest
    exact ⟨(view', undo :: undos), by simp only [CCoinsViewCache.spendInputs, hspend, hvin]⟩

theorem updateCoins_isSome {view : CCoinsViewCache} {tx : CTransaction} (nHeight : ℤ)
    (hnodup : tx.prevouts.Nodup) (hhave : view.haveInputs tx = true) :
    view.updateCoins tx nHeight ≠ none := by
  unfold CCoinsViewCache.updateCoins
  cases hcb : tx.isCoinBase with
  | true => simp
  | false =>
    rw [CCoinsViewCache.haveInputs, hcb, Bool.false_or, List.all_eq_true] at hhave
    obtain ⟨r, hr⟩ := spendInputs_isSome hnodup hhave
    simp [hr]

theorem accessCoins_of_haveInput {view : CCoinsViewCache} {prevout : COutPoint}
    (h : view.haveInput prevout = true) : view.accessCoins prevout.hash ≠ none := by
  intro hnone
  rw [CCoinsViewCache.haveInput, hnone] at h
  cases h

theorem orderly_checkInputValues {nSpendHeight : ℤ} {view : CCoinsViewCache} {vin : List CTxIn}
    (nValueIn : CAmount) (hhave : ∀ txin ∈ vin, view.haveInput txin.prevout = true) :
    Refuses Refusal.Orderly (checkInputValues par nSpendHeight view vin nValueIn) := by
  induction vin generalizing nValueIn with
  | nil => exact refuses_ok _
  | cons txin vin ih =>
    have hcoins := accessCoins_of_haveInput (hhave txin List.mem_cons_self)
    refine (refuses_present_some hcoins).bind fun coins => ?_
    refine (refuses_require (orderly_dos _ _ _)).bind fun _ => ?_
    refine (refuses_require (orderly_dos _ _ _)).bind fun _ => ?_
    exact ih _ fun other hother => hhave other (List.mem_cons_of_mem _ hother)

theorem orderly_runScripts (view : CCoinsViewCache) (flags : ℕ) (tx : CTransaction)
    (inputs : List (CTxIn × ℕ)) :
    Refuses Refusal.Orderly (runScripts orc view flags tx inputs) := by
  induction inputs with
  | nil => exact refuses_ok _
  | cons input inputs ih =>
    obtain ⟨txin, nIn⟩ := input
    exact ih.ite ((refuses_error (orderly_dos _ _ _)).ite (refuses_error (orderly_dos _ _ _)))

theorem orderly_checkFee {tx : CTransaction} (nValueIn : CAmount)
    (hout : tx.getValueOut ≠ none) : Refuses Refusal.Orderly (checkFee par nValueIn tx) := by
  refine (refuses_ok _).ite ((refuses_present_some hout).bind fun _ => ?_)
  refine (refuses_require (orderly_dos _ _ _)).bind fun _ => ?_
  exact refuses_require (orderly_dos _ _ _)

theorem orderly_checkInputs {tx : CTransaction} {view : CCoinsViewCache} (fScriptChecks : Bool)
    (flags : ℕ) (hindexed : env.mapBlockIndex.find view.hashBlock ≠ none)
    (hout : tx.getValueOut ≠ none) :
    Refuses Refusal.Orderly (checkInputs par orc env tx view fScriptChecks flags) := by
  unfold checkInputs
  split
  · exact refuses_ok _
  · next hcb =>
    refine Refuses.require_bind (orderly_dos _ _ _) fun hhave => ?_
    rw [CCoinsViewCache.haveInputs, Bool.or_eq_true, or_iff_right hcb, List.all_eq_true] at hhave
    refine (refuses_present_some hindexed).bind fun _ => ?_
    refine (orderly_checkInputValues 0 hhave).bind fun nValueIn => ?_
    refine (orderly_checkFee nValueIn hout).bind fun _ => ?_
    refine (refuses_pure _).ite ((refuses_pure _).ite ?_)
    exact (orderly_runScripts view flags tx _).bind fun _ => refuses_pure _

theorem orderly_tallyInputs {flags : ℕ} {fScriptChecks : Bool} {t : Tally} {tx : CTransaction}
    (hindexed : env.mapBlockIndex.find t.view.hashBlock ≠ none)
    (hout : tx.getValueOut ≠ none) :
    Refuses Refusal.Orderly (tallyInputs par orc env flags fScriptChecks t tx) := by
  have haddFee (nFees nValueIn : CAmount) :
      Refuses Refusal.Orderly (addFee nFees nValueIn tx) :=
    (refuses_ok _).ite ((refuses_present_some hout).bind fun _ => refuses_pure _)
  refine (refuses_ok _).ite ((refuses_require (orderly_dos _ _ _)).bind fun _ => ?_)
  refine (refuses_require (orderly_dos _ _ _)).bind fun _ => ?_
  refine (haddFee _ _).bind fun _ => ?_
  exact (orderly_checkInputs _ _ hindexed hout).bind fun _ => refuses_pure _

/-- A transaction that passed its first check finds all that is read for it. -/
theorem orderly_connectTransaction {nHeight : ℤ} {flags : ℕ} {fScriptChecks : Bool} {t : Tally}
    {tx : CTransaction} (hmoney : par.nMaxMoneyOut ≤ maxAmount)
    (htx : checkTransaction par tx = .ok ())
    (hindexed : env.mapBlockIndex.find t.view.hashBlock ≠ none) :
    Refuses Refusal.Orderly (connectTransaction par orc env nHeight flags fScriptChecks t tx) := by
  have hout := getValueOut_of_checkTransaction hmoney htx
  refine (refuses_require (orderly_dos _ _ _)).bind fun _ => ?_
  refine (orderly_tallyInputs (t := { t with nSigOps := t.nSigOps + tx.getLegacySigOpCount })
    hindexed hout).bind_of_ok fun t' ht' => ?_
  refine (refuses_present_some hout).bind fun _ => ?_
  refine (refuses_present_some ?_).bind fun _ => refuses_pure _
  have hhave : t.view.haveInputs tx = true := by
    unfold tallyInputs at ht'
    split at ht'
    · next hcb => rw [CCoinsViewCache.haveInputs, hcb, Bool.true_or]
    · simp only [bind_ok, require_ok] at ht'
      obtain ⟨_, hhave, -⟩ := ht'
      exact hhave
  rw [(tallyInputs_ok ht').1]
  exact updateCoins_isSome nHeight (nodup_of_checkTransaction htx) hhave

theorem hashBlock_updateCoins {view view' : CCoinsViewCache} {tx : CTransaction} {nHeight : ℤ}
    {undo : CTxUndo} (h : view.updateCoins tx nHeight = some (view', undo)) :
    view'.hashBlock = view.hashBlock := by
  obtain ⟨view₁, hspends, rfl⟩ := CCoinsViewCache.updateCoins_spec h
  exact hspends.hashBlock

theorem orderly_connectTransactions {nHeight : ℤ} {flags : ℕ} {fScriptChecks : Bool}
    {vtx : List CTransaction} {t : Tally} (hmoney : par.nMaxMoneyOut ≤ maxAmount)
    (hvtx : ∀ tx ∈ vtx, checkTransaction par tx = .ok ())
    (hindexed : env.mapBlockIndex.find t.view.hashBlock ≠ none) :
    Refuses Refusal.Orderly
      (connectTransactions par orc env nHeight flags fScriptChecks t vtx) := by
  induction vtx generalizing t with
  | nil => exact refuses_ok _
  | cons tx vtx ih =>
    have hfirst := hvtx tx List.mem_cons_self
    refine (orderly_connectTransaction hmoney hfirst hindexed).bind_of_ok ?_
    rintro ⟨t', undo⟩ ht'
    refine (ih (fun other hother => hvtx other (List.mem_cons_of_mem _ hother)) ?_).bind
      fun _ => refuses_pure _
    rw [hashBlock_updateCoins (connectTransaction_ok ht').1]
    exact hindexed

theorem orderly_enforceRecipients (block : CBlock) (nHeight : ℤ) (nExpectedMint : CAmount) :
    Refuses Refusal.Orderly (enforceRecipients env block nHeight nExpectedMint) := by
  refine Refuses.ite ?_ (refuses_ok _)
  refine (refuses_returned orderly_noReturn _).bind_of_ok fun p hp => ?_
  -- the only answer of `ActiveProtocol` lies below the version that the check waits for
  rw [Spork.activeProtocol_some (returned_ok.mp hp), if_neg (by decide)]
  exact refuses_pure _

/-- What the callers of `ConnectBlock` provide: the coins are those of the parent, which is in
the index below an active tip. -/
structure Connectable (par : Params) (env : Env) (block : CBlock) (pindex : CBlockIndex)
    (view : CCoinsViewCache) : Prop where
  money : par.nMaxMoneyOut ≤ maxAmount
  hashPrevBlock : (pindex.parent?.map CBlockIndex.getBlockHash).getD 0 = view.hashBlock
  indexed : block.getHash ≠ par.hashGenesisBlock →
    env.mapBlockIndex.find view.hashBlock ≠ none
  tip : block.getHash ≠ par.hashGenesisBlock → env.chainActive.tip ≠ none

theorem connectBlock_crashed {disk : Disk} {block : CBlock} {pindex : CBlockIndex}
    {view : CCoinsViewCache} {fJustCheck : Bool} (h : Connectable par env block pindex view) :
    connectBlock par orc env disk block pindex view fJustCheck = .error .crashed ↔
      checkBlock par orc env block (!fJustCheck) = .error .crashed := by
  cases hcheck : checkBlock par orc env block (!fJustCheck) with
  | error r =>
    simp only [connectBlock, hcheck, bind_error, Except.error.injEq, reduceCtorEq, false_and,
      exists_false, or_false]
  | ok u =>
    simp only [reduceCtorEq, iff_false]
    intro hcrash
    simp only [connectBlock, hcheck, h.hashPrevBlock, beq_self_eq_true] at hcrash
    refine absurd rfl (Refuses.bind (P := Refusal.Orderly) (refuses_ok ()) (fun _ => ?_) _ hcrash)
    refine Refuses.bind (refuses_ok ()) fun _ => ?_
    by_cases hgenesis : block.getHash = par.hashGenesisBlock
    · rw [if_pos hgenesis]
      exact refuses_pure _
    · rw [if_neg hgenesis]
      have htransactions := (checkBlock_ok hcheck).transactions
      have hvalue : env.getBlockValue par pindex.height ≠ none := by
        rw [Env.getBlockValue, Ne, Option.map_eq_none_iff]
        exact h.tip hgenesis
      refine (refuses_require (orderly_dos _ _ _)).bind fun _ => ?_
      refine (refuses_require (orderly_dos _ _ _)).bind fun _ => ?_
      refine (refuses_require (orderly_dos _ _ _)).bind fun _ => ?_
      refine (orderly_connectTransactions h.money htransactions (h.indexed hgenesis)).bind
        fun t => ?_
      refine (refuses_require orderly_failed).bind fun _ => ?_
      refine (refuses_present_some hvalue).bind fun _ => ?_
      refine (refuses_returned orderly_noReturn _).bind fun _ => ?_
      refine (refuses_require (orderly_dos _ _ _)).bind fun _ => ?_
      refine (orderly_enforceRecipients block _ _).bind fun _ => ?_
      refine (refuses_require (orderly_dos _ _ _)).bind fun _ => ?_
      refine Refuses.ite (refuses_pure _) ?_
      exact (refuses_require orderly_failed).bind fun _ => refuses_pure _

end ConnectBlock

end Scrypta.Validation

namespace Scrypta.Backing

open ProofOfWork
open Chainstate (Node)
open Validation (LacksPayingTransaction Connectable checkBlock connectBlock)

section Stake

variable (disk : Storage)

/-- The coinstake spends an output that its transaction does not have. -/
def LacksStakedOutput (block : CBlock) : Prop :=
  ∃ tx txin txPrev hashBlock, block.vtx[1]? = some tx ∧ tx.vin.head? = some txin ∧
    disk.getTransaction txin.prevout.hash = some (txPrev, hashBlock) ∧
    txPrev.vout.length ≤ txin.prevout.n.toNat

variable {disk}

theorem checkStakeKernelHash_isSome {Hash : Bytes → Uint256} {mapBlockIndex : Kernel.BlockMap}
    {chainActive : CChain} {nBits : BitVec 32} {blockFrom : CBlock} {txPrev : CTransaction}
    {prevout : COutPoint} {nTimeTx nHashDrift : BitVec 32} {fCheck : Bool}
    (h : txPrev.vout[prevout.n.toNat]? ≠ none) :
    Kernel.checkStakeKernelHash Hash mapBlockIndex chainActive nBits blockFrom txPrev prevout
      nTimeTx nHashDrift fCheck ≠ none := by
  obtain ⟨out, hout⟩ := Option.ne_none_iff_exists'.mp h
  simp only [Kernel.checkStakeKernelHash, hout]
  by_cases htime : nTimeTx < blockFrom.nTime
  · rw [if_pos htime]
    exact Option.some_ne_none _
  rw [if_neg htime]
  by_cases hage : nTimeTx < blockFrom.nTime + Kernel.nStakeMinAge
  · rw [if_pos hage]
    exact Option.some_ne_none _
  rw [if_neg hage]
  cases Kernel.getKernelStakeModifier mapBlockIndex chainActive blockFrom.getHash with
  | none => exact Option.some_ne_none _
  | some m => cases fCheck <;> exact Option.some_ne_none _

theorem coinStake_of_isProofOfStake {block : CBlock} (h : block.isProofOfStake = true) :
    ∃ tx txin rest, block.vtx[1]? = some tx ∧ tx.isCoinStake = true ∧ tx.vin = txin :: rest := by
  unfold CBlock.isProofOfStake at h
  split at h
  · next tx more hvtx =>
    have hvin : ∃ txin rest, tx.vin = txin :: rest := by
      unfold CTransaction.isCoinStake at h
      split at h
      · next txin rest _ _ _ hvin _ => exact ⟨txin, rest, hvin⟩
      · cases h
    obtain ⟨txin, rest, hvin⟩ := hvin
    exact ⟨tx, txin, rest, by rw [hvtx]; rfl, h, hvin⟩
  · cases h

theorem checkProofOfStake_of_output {mapBlockIndex : Kernel.BlockMap} {chainActive : CChain}
    {block : CBlock} {tx txPrev : CTransaction} {txin : CTxIn} {rest : List CTxIn}
    {hashBlock : Uint256} {out : CTxOut} (htx : block.vtx[1]? = some tx)
    (hvin : tx.vin = txin :: rest)
    (hget : disk.getTransaction txin.prevout.hash = some (txPrev, hashBlock))
    (hout : txPrev.vout[txin.prevout.n.toNat]? = some out) :
    checkProofOfStake disk mapBlockIndex chainActive block ≠ none := by
  simp only [checkProofOfStake, htx, hvin, hget, hout]
  cases tx.isCoinStake with
  | false => exact Option.some_ne_none _
  | true =>
    cases disk.verifyScript txin.scriptSig out.scriptPubKey tx with
    | false => exact Option.some_ne_none _
    | true =>
      cases mapBlockIndex.find hashBlock with
      | none => exact Option.some_ne_none _
      | some pindex =>
        cases hread : disk.readBlockFromDisk pindex with
        | none => simp [hread]
        | some blockprev =>
          simp only [Bool.not_true, Bool.false_eq_true, if_false, hread, ne_eq,
            Option.map_eq_none_iff]
          exact checkStakeKernelHash_isSome (by rw [hout]; exact Option.some_ne_none _)

/-- The check of a proof-of-stake block reads one place that may not exist. -/
theorem checkProofOfStake_eq_none {mapBlockIndex : Kernel.BlockMap} {chainActive : CChain}
    {block : CBlock} (h : block.isProofOfStake = true) :
    checkProofOfStake disk mapBlockIndex chainActive block = none ↔
      LacksStakedOutput disk block := by
  obtain ⟨tx, txin, rest, htx, hstake, hvin⟩ := coinStake_of_isProofOfStake h
  constructor
  · intro hnone
    cases hget : disk.getTransaction txin.prevout.hash with
    | none => simp [checkProofOfStake, htx, hstake, hvin, hget] at hnone
    | some found =>
      obtain ⟨txPrev, hashBlock⟩ := found
      refine ⟨tx, txin, txPrev, hashBlock, htx, by rw [hvin]; rfl, hget, ?_⟩
      cases hout : txPrev.vout[txin.prevout.n.toNat]? with
      | none => exact List.getElem?_eq_none_iff.mp hout
      | some out => exact absurd hnone (checkProofOfStake_of_output htx hvin hget hout)
  · rintro ⟨tx', txin', txPrev, hashBlock, htx', htxin', hget, hlen⟩
    obtain rfl := Option.some.inj (htx.symm.trans htx')
    rw [hvin, List.head?_cons] at htxin'
    obtain rfl := Option.some.inj htxin'
    simp [checkProofOfStake, htx, hstake, hvin, hget, List.getElem?_eq_none hlen]

theorem checkWork_eq_none {par : Params} {n : Node} {block : CBlock} {pindexPrev : CBlockIndex} :
    checkWork par disk n block pindexPrev = none ↔
      block.nBits = getNextWorkRequired par pindexPrev ∧ block.isProofOfStake = true ∧
        LacksStakedOutput disk block := by
  unfold checkWork
  split
  · next hbits => simp [hbits]
  · next hbits =>
    split
    · next hstake => simp [not_not.mp hbits, hstake, checkProofOfStake_eq_none hstake]
    · next hstake => simp [hstake]

end Stake

section Reads

variable (vpar : Validation.Params) (orc : Validation.Oracles) (env : Validation.Env)
  (par : Params) (storage : Storage)

/-- `CheckBlock`, `CheckWork` and `ConnectBlock` read only places that exist. -/
def ReadsInRange (n : Node) (block : CBlock) (pindexPrev pindex : CBlockIndex)
    (disk : Validation.Disk) (view : CCoinsViewCache) (fJustCheck : Bool) : Prop :=
  checkBlock vpar orc env block (!fJustCheck) ≠ .error .crashed ∧
    checkWork par storage n block pindexPrev ≠ none ∧
    connectBlock vpar orc env disk block pindex view fJustCheck ≠ .error .crashed

variable {vpar orc env par storage}

/-- The checks read only places that exist exactly when the block is not a coinbase alone where a
masternode payment is looked for, and no stake of the required difficulty spends an output that
its transaction does not have. -/
theorem readsInRange_iff {n : Node} {block : CBlock} {pindexPrev pindex : CBlockIndex}
    {disk : Validation.Disk} {view : CCoinsViewCache} {fJustCheck : Bool}
    (h : Connectable vpar env block pindex view) :
    ReadsInRange vpar orc env par storage n block pindexPrev pindex disk view fJustCheck ↔
      ¬LacksPayingTransaction vpar orc env block (!fJustCheck) ∧
        ¬(block.nBits = getNextWorkRequired par pindexPrev ∧ block.isProofOfStake = true ∧
          LacksStakedOutput storage block) := by
  simp only [ReadsInRange, ne_eq, Validation.connectBlock_crashed h,
    Validation.checkBlock_crashed, checkWork_eq_none]
  constructor
  · rintro ⟨hpaying, hstaked, -⟩
    exact ⟨hpaying, hstaked⟩
  · rintro ⟨hpaying, hstaked⟩
    exact ⟨hpaying, hstaked, hpaying⟩

end Reads

/-! A synchronised node above the last proof-of-work block. -/

theorem height_plainChain (n : ℕ) : (Validation.plainChain n).height = n := by
  induction n with
  | zero => rfl
  | succ n ih => exact congrArg (· + 1) ih

def stakePhaseTip : CBlockIndex := Validation.plainChain 751

def stakePhaseEnv : Validation.Env := Validation.plainEnv stakePhaseTip Dict.empty Dict.empty

/-- The target of the work is looked at, as the node does. -/
def workOracles : Validation.Oracles :=
  { Validation.plainOracles with checkProofOfWork := checkProofOfWork mainWork }

def loneCoinbase : CBlock :=
  Validation.plainBlock 5000 stakePhaseTip.getBlockHash
    [Validation.coinbaseOf 501 [⟨0, [0x51], -10⟩]]

/-- A transaction with one output. -/
def smallTransaction : CTransaction := Validation.coinbaseOf 400 [⟨1000, [0x51], -10⟩]

def smallStorage : Storage :=
  ⟨fun _ => 0, fun txid => if txid = 400 then some (smallTransaction, 1000) else none,
    fun _ => none, fun _ _ _ => true⟩

/-- Its coinstake spends the sixth output of the transaction. -/
def overreachingStake : CBlock :=
  { Validation.plainBlock 6000 1000 [Validation.coinbaseOf 502 [⟨0, [], -10⟩],
      Validation.spendOf 503 ⟨400, 5⟩ [⟨0, [], -10⟩, ⟨1000, [0x51], -10⟩]] with
    nBits := getNextWorkRequired mainWork genesisIndex }

theorem lacksPayingTransaction_loneCoinbase (fCheckMerkleRoot : Bool) :
    LacksPayingTransaction Validation.mainParams workOracles stakePhaseEnv loneCoinbase
      fCheckMerkleRoot := by
  have hheight : Validation.nHeightFor stakePhaseEnv loneCoinbase = 752 := by
    have htip : stakePhaseEnv.chainActive.tip = some stakePhaseTip :=
      CChain.tip_ofTip stakePhaseTip
    simp only [Validation.nHeightFor, htip, loneCoinbase, Validation.plainBlock, if_true,
      stakePhaseTip, height_plainChain]
    rfl
  exact {
    isSynced := rfl
    downloaded := rfl
    tip := congrArg Option.isSome (CChain.tip_ofTip stakePhaseTip)
    known := by rw [hheight]; decide
    stakePhase := by rw [hheight]; decide
    coinbase := ⟨_, rfl, rfl⟩
    proofOfWork := by decide
    time := by decide
    merkleRoot := by cases fCheckMerkleRoot <;> rfl
    size := by decide }

/-- `CheckBlock` reads outside of the one block, `CheckWork` outside of the transaction that the
other spends. -/
theorem blocks_read_out_of_range :
    checkBlock Validation.mainParams workOracles stakePhaseEnv loneCoinbase true =
        .error .crashed ∧
      checkWork mainWork smallStorage newNode overreachingStake genesisIndex = none :=
  ⟨Validation.checkBlock_crashed.mpr (lacksPayingTransaction_loneCoinbase true),
    checkWork_eq_none.mpr ⟨rfl, rfl, _, _, smallTransaction, 1000, rfl, rfl, rfl, by decide⟩⟩

def stakePhaseView : CCoinsViewCache := ⟨stakePhaseTip.getBlockHash, Dict.empty⟩

theorem readsInRange_iff_loneCoinbase :
    ReadsInRange Validation.mainParams workOracles stakePhaseEnv mainWork smallStorage newNode
        loneCoinbase stakePhaseTip
        (.child stakePhaseTip ⟨5000, 1500000000, 0x1e0ffff0, false, false, 0⟩) {} stakePhaseView
        false ↔
      ¬LacksPayingTransaction Validation.mainParams workOracles stakePhaseEnv loneCoinbase true ∧
        ¬(loneCoinbase.nBits = getNextWorkRequired mainWork stakePhaseTip ∧
          loneCoinbase.isProofOfStake = true ∧ LacksStakedOutput smallStorage loneCoinbase) :=
  readsInRange_iff {
    money := by decide
    hashPrevBlock := rfl
    indexed := fun _ => by
      rw [stakePhaseEnv, stakePhaseView]
      simp [Validation.plainEnv]
    tip := fun _ => by
      rw [stakePhaseEnv, Validation.plainEnv, CChain.tip_ofTip]
      exact Option.some_ne_none _ }

end Scrypta.Backing
