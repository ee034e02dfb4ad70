import Scrypta.ConnectBlock
import Scrypta.Ledger

/-! `DisconnectBlock`: the transactions of a block are taken back in reverse order, each by removing
its outputs and restoring its inputs from the undo data. -/

namespace Scrypta

open Slots

/-- One output is put back. The flag says that nothing contradicts it. -/
def CCoins.restore (coins : CCoins) (n : ℕ) (undo : CTxInUndo) : CCoins × Bool :=
  let base : CCoins :=
    -- with a height, this was the last output of its transaction
    if undo.nHeight ≠ 0 then
      { CCoins.empty with
        fCoinBase := undo.fCoinBase
        nHeight := toInt32 undo.nHeight
        nVersion := undo.nVersion }
    else coins
  ({ base with vout := place CTxOut.null base.vout n undo.txout },
    (if undo.nHeight ≠ 0 then coins.isPruned else !coins.isPruned) && !base.isAvailable n)

namespace Validation

/-- The outputs of a transaction are removed. The flag says that they were those of the block. -/
def clearOutputs (view : CCoinsViewCache) (tx : CTransaction) (nHeight : ℤ) :
    CCoinsViewCache × Bool :=
  let outs := (view.coinsFor tx.getHash).clearUnspendable
  let outsBlock := CCoins.fromTx tx nHeight
  let outs := if outsBlock.nVersion < 0 then { outs with nVersion := outsBlock.nVersion } else outs
  (view.putCoins tx.getHash CCoins.empty, outs.equal outsBlock)

/-- The inputs of a transaction are restored, the last one first. -/
def restoreInputs (view : CCoinsViewCache) : List (CTxIn × CTxInUndo) → CCoinsViewCache × Bool
  | [] => (view, true)
  | (txin, undo) :: rest =>
    let (view, fClean) := restoreInputs view rest
    let (coins, fRestored) :=
      (view.coinsFor txin.prevout.hash).restore txin.prevout.n.toNat undo
    (view.putCoins txin.prevout.hash coins, fClean && fRestored)

def disconnectTransaction (nHeight : ℤ) (view : CCoinsViewCache) (tx : CTransaction)
    (txundo : CTxUndo) : Except Refusal (CCoinsViewCache × Bool) :=
  let (view, fCleared) := clearOutputs view tx nHeight
  if txundo.vprevout.length ≠ tx.vin.length then .error .failed
  else
    let (view, fRestored) := restoreInputs view (tx.vin.zip txundo.vprevout)
    .ok (view, fCleared && fRestored)

/-- The transactions after the first one, the last one first. -/
def disconnectTransactions (nHeight : ℤ) (view : CCoinsViewCache) :
    List (CTransaction × CTxUndo) → Except Refusal (CCoinsViewCache × Bool)
  | [] => .ok (view, true)
  | (tx, txundo) :: rest => do
    let (view, fClean) ← disconnectTransactions nHeight view rest
    let (view, fDone) ← disconnectTransaction nHeight view tx txundo
    pure (view, fClean && fDone)

/-- The view without the block, and whether everything fitted. `blockUndo` is the undo data of the
block, if there is any and it can be read. -/
def disconnectBlock (block : CBlock) (blockUndo : Option CBlockUndo) (pindex : CBlockIndex)
    (view : CCoinsViewCache) : Except Refusal (CCoinsViewCache × Bool) := do
  require (pindex.getBlockHash == view.hashBlock) .crashed
  match pindex.parent?, blockUndo, block.vtx with
  | none, _, _ => .error .crashed
  | some _, none, _ => .error .failed
  | some _, some _, [] => .error .failed
  | some pprev, some blockUndo, coinbase :: vtx =>
    if blockUndo.vtxundo.length + 1 ≠ block.vtx.length then .error .failed
    else do
      let (view, fClean) ← disconnectTransactions pindex.height view (vtx.zip blockUndo.vtxundo)
      let (view, fCleared) := clearOutputs view coinbase pindex.height
      pure (view.setBestBlock (CBlockIndex.getBlockHash pprev), fClean && fCleared)

end Validation

/-! Taking back what was just done. -/

namespace CCoins

variable {c c' d : CCoins} {n : ℕ} {undo : CTxInUndo}

/-- The undo data of the last output of a transaction keeps all that is known of it. -/
structure Kept (c : CCoins) : Prop where
  fCoinStake : c.fCoinStake = false
  pos : 1 ≤ c.nHeight
  lt : c.nHeight < 2 ^ 30
  nVersion : 0 ≤ c.nVersion

theorem Kept.of_bare (h : c.Kept) (hbare : d.bare = c.bare) : d.Kept := by
  have hstake := congrArg CCoins.fCoinStake hbare
  have hheight := congrArg CCoins.nHeight hbare
  have hversion := congrArg CCoins.nVersion hbare
  simp only [bare] at hstake hheight hversion
  exact ⟨hstake.trans h.fCoinStake, hheight ▸ h.pos, hheight ▸ h.lt, hversion ▸ h.nVersion⟩

theorem toInt32_toUInt32 {x : ℤ} (h : 1 ≤ x) (hlt : x < 2 ^ 30) : toInt32 (toUInt32 x) = x := by
  have hself : (toUInt32 x : ℤ) = x := by
    rw [toUInt32]
    omega
  rw [hself]
  exact toInt32_eq_self (by omega) (by omega)

theorem tidy_restore (hd : d.Tidy) (hnull : undo.txout.isNull = false) :
    (d.restore n undo).1.cleanup.Tidy := by
  have hplace : ∀ l : List CTxOut, (∀ a ∈ l, a.isNull = true → a = CTxOut.null) →
      ∀ a ∈ place CTxOut.null l n undo.txout, a.isNull = true → a = CTxOut.null := by
    intro l hl a ha hnull'
    rcases List.mem_or_eq_of_mem_set ha with ha | rfl
    · rcases List.mem_append.mp ha with ha | ha
      · exact hl a ha hnull'
      · exact List.eq_of_mem_replicate ha
    · rw [hnull] at hnull'
      cases hnull'
  refine Slots.Tidy.rdropWhile (hplace _ ?_)
  simp only
  split
  · exact nofun
  · exact hd.canonical

/-- With a height everything but the output comes from the record. -/
theorem restore_of_height (h : undo.nHeight ≠ 0) (d : CCoins) (n : ℕ) :
    (d.restore n undo).1 = ⟨undo.fCoinBase, false, place CTxOut.null [] n undo.txout,
      toInt32 undo.nHeight, undo.nVersion⟩ := by
  simp only [restore, if_pos h]
  rfl

/-- Spending is undone on what it left, when the undo data keeps what is needed. -/
theorem restore_spend (h : c.spend n = some (c', undo)) (hc : c.Tidy)
    (hkept : c'.isPruned = true → c.Kept)
    (hd : (d.isPruned = true ∧ c'.isPruned = true) ∨ d = c') :
    (d.restore n undo).2 = true ∧ (d.restore n undo).1.cleanup = c := by
  obtain ⟨hhad, hrest, hbare, htidy, hundo⟩ := spend_spec h
  have hnull : undo.txout.isNull = false := (held_eq_some.mp hhad).2
  have hgone : c'.output n = none := by rw [hrest, if_pos rfl]
  cases hpruned : c'.isPruned with
  | true =>
    have hk := hkept hpruned
    rw [hpruned, if_pos rfl] at hundo
    have hheight : undo.nHeight ≠ 0 := by
      have hpos := hk.pos
      have hlt := hk.lt
      rw [hundo]
      simp only [toUInt32]
      omega
    have hdpruned : d.isPruned = true := by
      rcases hd with hd | rfl
      · exact hd.1
      · exact hpruned
    have hbase : (d.restore n undo).1 =
        ⟨c.fCoinBase, false, place CTxOut.null [] n undo.txout, c.nHeight, c.nVersion⟩ := by
      rw [restore_of_height hheight, hundo]
      simp only [toInt32_toUInt32 hk.pos hk.lt]
    constructor
    · simp only [restore, if_pos hheight, hdpruned]
      rfl
    · refine Tidy.ext ?_ hc ?_ fun m => ?_
      · rw [hbase]
        have h := @tidy_restore CCoins.empty n ⟨undo.txout, false, false, 1, 0⟩ Slots.Tidy.nil hnull
        exact h
      · rw [hbase, bare_cleanup, bare, bare, hk.fCoinStake]
      · rw [output_cleanup, hbase]
        refine (held_place isNull_null hnull [] n m).trans ?_
        by_cases hm : m = n
        · rw [if_pos hm, hm, hhad]
        · have hnone := isPruned_iff.mp hpruned m
          rw [hrest, if_neg hm] at hnone
          rw [if_neg hm, hnone]
          rfl
  | false =>
    rw [hpruned] at hundo
    have hheight : ¬undo.nHeight ≠ 0 := by
      rw [hundo]
      exact fun h => h rfl
    obtain rfl : d = c' := hd.resolve_left fun hp => by rw [hpruned] at hp; cases hp.2
    have hbase : (d.restore n undo).1 =
        { d with vout := place CTxOut.null d.vout n undo.txout } := by
      simp only [restore, if_neg hheight]
    constructor
    · simp only [restore, if_neg hheight, hpruned, isAvailable_eq, hgone]
      rfl
    · refine Tidy.ext (tidy_restore (htidy hc) hnull) hc ?_ fun m => ?_
      · rw [hbase]
        exact hbare
      · rw [output_cleanup, hbase]
        refine (held_place isNull_null hnull d.vout n m).trans ?_
        by_cases hm : m = n
        · rw [if_pos hm, hm, hhad]
        · have hsame := hrest m
          rw [if_neg hm] at hsame
          rw [if_neg hm, ← hsame]
          rfl

/-- Null outputs stay null when the unspendable ones are cleared. -/
theorem isPruned_clearUnspendable (h : c.isPruned = true) : c.clearUnspendable.isPruned = true := by
  rw [clearUnspendable, isPruned_cleanup, isPruned, List.all_map]
  refine List.all_eq_true.mpr fun o ho => ?_
  simp only [Function.comp_apply]
  split
  · rfl
  · exact List.all_eq_true.mp h o ho

/-- Nothing is left to clear in the coins of a new transaction. -/
theorem clearUnspendable_fromTx (tx : CTransaction) (nHeight : ℤ) :
    (fromTx tx nHeight).clearUnspendable = fromTx tx nHeight := by
  have hsame : ∀ o ∈ (fromTx tx nHeight).vout,
      (if Script.isUnspendable o.scriptPubKey then CTxOut.null else o) = o := by
    intro o ho
    obtain ⟨o', -, rfl⟩ := List.mem_map.mp ((List.rdropWhile_prefix CTxOut.isNull _).subset ho)
    by_cases hu : Script.isUnspendable o'.scriptPubKey = true
    · rw [if_pos hu]
      exact ite_self _
    · rw [if_neg hu, if_neg hu]
  have hmap := List.map_congr_left hsame
  rw [List.map_id''  fun _ => rfl] at hmap
  rw [clearUnspendable, hmap, cleanup]
  simp only [fromTx, clearUnspendable, cleanup, List.rdropWhile_idempotent]

end CCoins

namespace Validation

variable {view W : CCoinsViewCache} {nHeight : ℤ}

/-- The outputs of the last transaction are removed. -/
theorem clearOutputs_spec {tx : CTransaction} (hnew : view.unspent tx.hash = none)
    (hversion : 0 ≤ tx.nVersion) (htidy : (CCoins.fromTx tx nHeight).Tidy)
    (hW : ∀ txid, W.unspent txid = (view.addOutputs tx nHeight).unspent txid) :
    (clearOutputs W tx nHeight).2 = true ∧
      ∀ txid, (clearOutputs W tx nHeight).1.unspent txid = view.unspent txid := by
  constructor
  · have hpos : ¬(CCoins.fromTx tx nHeight).nVersion < 0 := by
      simpa [CCoins.fromTx, CCoins.clearUnspendable, CCoins.cleanup] using hversion
    have hself := hW tx.hash
    rw [CCoinsViewCache.addOutputs, CCoinsViewCache.unspent_putCoins, CTransaction.getHash,
      if_pos rfl, htidy.cleanup] at hself
    simp only [clearOutputs, CTransaction.getHash, if_neg hpos]
    cases hpruned : (CCoins.fromTx tx nHeight).isPruned with
    | true =>
      rw [hpruned, if_pos rfl, CCoinsViewCache.unspent_eq] at hself
      have hnone : (W.coinsFor tx.hash).isPruned = true := by
        by_contra h
        rw [if_neg h] at hself
        cases hself
      rw [CCoins.equal, CCoins.isPruned_clearUnspendable hnone, hpruned]
      rfl
    | false =>
      rw [hpruned] at hself
      have hcoins := (CCoinsViewCache.unspent_eq_some.mp hself).1
      rw [hcoins, CCoins.clearUnspendable_fromTx, CCoins.equal]
      simp
  · intro txid
    rw [clearOutputs, CCoinsViewCache.unspent_putCoins, CTransaction.getHash]
    by_cases htxid : txid = tx.hash
    · rw [if_pos htxid, htxid, hnew]
      rfl
    · rw [if_neg htxid, hW, CCoinsViewCache.addOutputs, CCoinsViewCache.unspent_putCoins,
        CTransaction.getHash, if_neg htxid]

theorem restoreInputs_cons (W : CCoinsViewCache) (txin : CTxIn) (undo : CTxInUndo)
    (rest : List (CTxIn × CTxInUndo)) :
    restoreInputs W ((txin, undo) :: rest) =
      ((restoreInputs W rest).1.putCoins txin.prevout.hash
        (((restoreInputs W rest).1.coinsFor txin.prevout.hash).restore
          txin.prevout.n.toNat undo).1,
      (restoreInputs W rest).2 &&
        (((restoreInputs W rest).1.coinsFor txin.prevout.hash).restore
          txin.prevout.n.toNat undo).2) := rfl

/-- The inputs of a transaction are restored, when the undo data keeps what is needed of the
coins that the transaction used up. -/
theorem restoreInputs_spec {vin : List CTxIn} {undos : List CTxInUndo} {view' : CCoinsViewCache}
    (h : view.spendInputs vin = some (view', undos)) (htidy : view.Tidy)
    (hkept : ∀ txid c, view.unspent txid = some c → view'.unspent txid = none → c.Kept)
    (hW : ∀ txid, W.unspent txid = view'.unspent txid) :
    (restoreInputs W (vin.zip undos)).2 = true ∧
      ∀ txid, (restoreInputs W (vin.zip undos)).1.unspent txid = view.unspent txid := by
  induction vin generalizing view undos with
  | nil =>
    cases h
    exact ⟨rfl, hW⟩
  | cons txin vin ih =>
    simp only [CCoinsViewCache.spendInputs] at h
    split at h
    · cases h
    next c' undo hone =>
    split at h
    · cases h
    next view₂ undos' hrest =>
    obtain ⟨rfl, rfl⟩ := Prod.mk.inj (Option.some.inj h)
    have hspends := CCoinsViewCache.spends_one hone
    obtain ⟨hclean, hsame⟩ := ih hrest (hspends.tidy htidy) fun txid c₁ hc₁ hnone => by
      obtain ⟨c, hc, hbare⟩ := hspends.bare txid c₁ hc₁
      exact (hkept txid c hc hnone).of_bare hbare
    have hc : view.unspent txin.prevout.hash = some (view.coinsFor txin.prevout.hash) :=
      CCoinsViewCache.unspent_eq_some.mpr
        ⟨rfl, CCoins.isPruned_eq_false_iff.mpr ⟨_, _, (CCoins.spend_spec hone).1⟩⟩
    have hctidy := htidy _ _ hc
    have hnext := hsame txin.prevout.hash
    rw [CCoinsViewCache.unspent_putCoins, if_pos rfl,
      ((CCoins.spend_spec hone).2.2.2.1 hctidy).cleanup] at hnext
    have hd : ((restoreInputs W (vin.zip undos')).1.coinsFor txin.prevout.hash).isPruned = true ∧
        c'.isPruned = true ∨
        (restoreInputs W (vin.zip undos')).1.coinsFor txin.prevout.hash = c' := by
      cases hpruned : c'.isPruned with
      | true =>
        rw [hpruned, if_pos rfl, CCoinsViewCache.unspent_eq_none] at hnext
        exact .inl ⟨CCoins.isPruned_iff.mpr hnext, rfl⟩
      | false =>
        rw [hpruned] at hnext
        exact .inr (CCoinsViewCache.unspent_eq_some.mp hnext).1
    obtain ⟨hflag, hrestored⟩ := CCoins.restore_spend hone hctidy
      (fun hpruned => hkept _ _ hc ((CCoinsViewCache.spends_spendInputs hrest).none (by
        rw [CCoinsViewCache.unspent_putCoins, if_pos rfl, if_pos hpruned]))) hd
    rw [List.zip_cons_cons, restoreInputs_cons]
    refine ⟨by rw [hclean, hflag]; rfl, fun txid => ?_⟩
    rw [CCoinsViewCache.unspent_putCoins]
    by_cases htxid : txid = txin.prevout.hash
    · rw [if_pos htxid, htxid, hc, ← CCoins.isPruned_cleanup, hrestored,
        (CCoinsViewCache.unspent_eq_some.mp hc).2]
      rfl
    · rw [if_neg htxid, hsame, CCoinsViewCache.unspent_putCoins, if_neg htxid]

theorem disconnectTransaction_clean {tx : CTransaction} {txundo : CTxUndo} :
    disconnectTransaction nHeight view tx txundo = .ok (W, true) ↔
      txundo.vprevout.length = tx.vin.length ∧
      (clearOutputs view tx nHeight).2 = true ∧
      (restoreInputs (clearOutputs view tx nHeight).1 (tx.vin.zip txundo.vprevout)).2 = true ∧
      (restoreInputs (clearOutputs view tx nHeight).1 (tx.vin.zip txundo.vprevout)).1 = W := by
  rw [disconnectTransaction]
  by_cases hlen : txundo.vprevout.length = tx.vin.length
  · simp only [hlen, ne_eq, not_true_eq_false, if_false, Except.ok.injEq, Prod.mk.injEq,
      Bool.and_eq_true, true_and]
    exact ⟨fun h => ⟨h.2.1, h.2.2, h.1⟩, fun h => ⟨h.2.2, h.1, h.2.1⟩⟩
  · simp [hlen]

theorem disconnectTransactions_clean {tx : CTransaction} {txundo : CTxUndo}
    {rest : List (CTransaction × CTxUndo)} :
    disconnectTransactions nHeight view ((tx, txundo) :: rest) = .ok (W, true) ↔
      ∃ view', disconnectTransactions nHeight view rest = .ok (view', true) ∧
        disconnectTransaction nHeight view' tx txundo = .ok (W, true) := by
  simp only [disconnectTransactions, bind_ok]
  constructor
  · rintro ⟨⟨view', fClean⟩, hrest, ⟨view₂, fDone⟩, hone, h⟩
    obtain ⟨rfl, hflags⟩ := Prod.mk.inj (Except.ok.inj h)
    obtain ⟨rfl, rfl⟩ := Bool.and_eq_true_iff.mp hflags
    exact ⟨view', hrest, hone⟩
  · rintro ⟨view', hrest, hone⟩
    exact ⟨_, hrest, _, hone, rfl⟩

/-- A block that is taken back without anything in the way. -/
theorem disconnectBlock_clean {block : CBlock} {blockUndo : Option CBlockUndo}
    {pindex pprev : CBlockIndex} (hprev : pindex.parent? = some pprev) :
    disconnectBlock block blockUndo pindex view = .ok (W, true) ↔
      pindex.getBlockHash = view.hashBlock ∧ ∃ undo coinbase vtx view',
        blockUndo = some undo ∧ block.vtx = coinbase :: vtx ∧
        undo.vtxundo.length = vtx.length ∧
        disconnectTransactions pindex.height view (vtx.zip undo.vtxundo) = .ok (view', true) ∧
        (clearOutputs view' coinbase pindex.height).2 = true ∧
        (clearOutputs view' coinbase pindex.height).1.setBestBlock
          (CBlockIndex.getBlockHash pprev) = W := by
  unfold disconnectBlock
  rw [bind_ok]
  simp only [require_ok, beq_iff_eq, exists_const, hprev]
  refine and_congr_right fun hhash => ?_
  cases blockUndo with
  | none => simp
  | some undo =>
    cases hvtx : block.vtx with
    | nil => simp
    | cons coinbase vtx =>
      by_cases hlen : undo.vtxundo.length = vtx.length
      · simp only [List.length_cons, hlen, ne_eq, not_true_eq_false, if_false, bind_ok]
        constructor
        · rintro ⟨⟨view', fClean⟩, hrest, h⟩
          obtain ⟨rfl, hflags⟩ := Prod.mk.inj (Except.ok.inj h)
          obtain ⟨rfl, hcleared⟩ := Bool.and_eq_true_iff.mp hflags
          exact ⟨undo, coinbase, vtx, view', rfl, rfl, hlen, hrest, hcleared, rfl⟩
        · rintro ⟨undo', coinbase', vtx', view', hundo, heq, -, hrest, hcleared, rfl⟩
          obtain rfl := Option.some.inj hundo
          obtain ⟨rfl, rfl⟩ := List.cons.inj heq
          refine ⟨_, hrest, ?_⟩
          simp only [hcleared]
          rfl
      · simp [hlen]

end Validation

end Scrypta
