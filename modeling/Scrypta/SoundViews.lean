import Scrypta.Supply

/-! Views whose coins come from blocks. Every unspent output is one that some block created, so
that an output stands for the same value in every view, before and after blocks are taken back. -/

namespace Scrypta.Supply

open CCoinsViewCache Validation

/-- What is unspent at a place was created there by a block that was checked. -/
def Created (blockOf : CBlockIndex → CBlock) (txid : Uint256) (n : ℕ) (o : CTxOut) : Prop :=
  ∃ p, ∃ tx ∈ (blockOf p).vtx, tx.hash = txid ∧ tx.vout[n]? = some o ∧
    Script.isUnspendable o.scriptPubKey = false ∧ Undo.Storable o

/-- No two transactions have one hash. -/
def Distinct (blockOf : CBlockIndex → CBlock) : Prop :=
  ∀ p q, ∀ tx ∈ (blockOf p).vtx, ∀ tx' ∈ (blockOf q).vtx, tx'.hash = tx.hash → tx' = tx

structure SoundCoins (blockOf : CBlockIndex → CBlock) (txid : Uint256) (c : CCoins) : Prop where
  tidy : c.Tidy
  nHeight : 1 ≤ c.nHeight ∧ c.nHeight < 2 ^ 30
  nVersion : -2 ^ 31 ≤ c.nVersion ∧ c.nVersion < 2 ^ 31
  outputs : ∀ n o, c.output n = some o → Created blockOf txid n o

def Sound (blockOf : CBlockIndex → CBlock) (view : CCoinsViewCache) : Prop :=
  ∀ txid c, view.unspent txid = some c → SoundCoins blockOf txid c

/-- A record names what the input spent. -/
def FitsInput (blockOf : CBlockIndex → CBlock) (txin : CTxIn) (r : CTxInUndo) : Prop :=
  Created blockOf txin.prevout.hash txin.prevout.n.toNat r.txout ∧ Undo.Writable r

def FitsTx (blockOf : CBlockIndex → CBlock) (tx : CTransaction) (undo : CTxUndo) : Prop :=
  List.Forall₂ (FitsInput blockOf) (inputsOf tx) undo.vprevout

def Fits (blockOf : CBlockIndex → CBlock) (vtx : List CTransaction) (undos : List CTxUndo) :
    Prop :=
  List.Forall₂ (FitsTx blockOf) vtx undos

variable {blockOf : CBlockIndex → CBlock} {view mid view' : CCoinsViewCache} {nHeight : ℤ}
  {tx : CTransaction} {txid : Uint256} {n : ℕ}

theorem Created.eq (hdistinct : Distinct blockOf) {o o' : CTxOut} (h : Created blockOf txid n o)
    (h' : Created blockOf txid n o') : o = o' := by
  obtain ⟨p, tx, htx, hhash, hget, -⟩ := h
  obtain ⟨q, tx', htx', hhash', hget', -⟩ := h'
  obtain rfl := hdistinct p q tx htx tx' htx' (hhash'.trans hhash.symm)
  exact Option.some.inj (hget.symm.trans hget')

theorem Sound.tidy (h : Sound blockOf view) : view.Tidy := fun txid c hc => (h txid c hc).tidy

theorem Sound.putCoins (h : Sound blockOf view) {c : CCoins}
    (hc : c.isPruned = false → SoundCoins blockOf txid c.cleanup) :
    Sound blockOf (view.putCoins txid c) := by
  intro txid' c' hc'
  rw [unspent_putCoins] at hc'
  split at hc'
  · next htxid =>
    split at hc'
    · cases hc'
    · next hpruned =>
      rw [htxid, ← Option.some.inj hc']
      exact hc (by simpa using hpruned)
  · exact h txid' c' hc'

theorem Sound.spends (h : Sound blockOf view) {os : List COutPoint} (hs : Spends view os mid) :
    Sound blockOf mid := by
  intro txid c hc
  obtain ⟨e, he, hbare⟩ := hs.bare txid c hc
  obtain ⟨-, -, -, hheight, hversion⟩ := CCoins.mk.inj hbare
  have hsound := h txid e he
  refine ⟨hs.tidy h.tidy txid c hc, hheight ▸ hsound.nHeight, hversion ▸ hsound.nVersion,
    fun n o ho => hsound.outputs n o ?_⟩
  have hout := hs.output txid n
  rw [output_eq, hc, Option.bind_some, ho, output_eq, he, Option.bind_some] at hout
  split at hout
  · cases hout
  · exact hout.symm

/-- The coins of a transaction of a block. -/
theorem soundCoins_fromTx {p : CBlockIndex} (htx : tx ∈ (blockOf p).vtx)
    (houtputs : ∀ o ∈ tx.vout, Undo.Storable o)
    (hversion : -2 ^ 31 ≤ tx.nVersion ∧ tx.nVersion < 2 ^ 31)
    (hheight : 1 ≤ nHeight ∧ nHeight < 2 ^ 30) :
    SoundCoins blockOf tx.hash (CCoins.fromTx tx nHeight) := by
  refine ⟨CCoins.tidy_fromTx (fun o ho hnull => ?_) nHeight, hheight, hversion, fun n o ho => ?_⟩
  · rw [isNull_of_nonneg (houtputs o ho).nonneg] at hnull
    cases hnull
  · have hheld : (CCoins.fromTx tx nHeight).output n = Slots.held CTxOut.isNull (tx.vout.map
        fun txout => if Script.isUnspendable txout.scriptPubKey then CTxOut.null else txout) n :=
      CCoins.output_cleanup _ n
    rw [hheld] at ho
    obtain ⟨hget, hnull⟩ := Slots.held_eq_some.mp ho
    rw [List.getElem?_map] at hget
    obtain ⟨o', hget', rfl⟩ := Option.map_eq_some_iff.mp hget
    cases hu : Script.isUnspendable o'.scriptPubKey with
    | true =>
      rw [hu] at hnull
      cases hnull
    | false =>
      exact ⟨p, tx, htx, rfl, hget', hu, houtputs o' (List.mem_of_getElem? hget')⟩

/-- The records of a transaction that was applied. -/
theorem Sound.fitsTx (h : Sound blockOf view) {undo : CTxUndo}
    (hs : view.spendInputs (inputsOf tx) = some (mid, undo.vprevout)) : FitsTx blockOf tx undo := by
  unfold FitsTx
  generalize inputsOf tx = vin at hs
  generalize undo.vprevout = undos at hs
  induction vin generalizing view undos with
  | nil =>
    cases hs
    exact .nil
  | cons txin vin ih =>
    simp only [spendInputs] at hs
    split at hs
    · cases hs
    next c' r hone =>
    split at hs
    · cases hs
    next view₂ undos' hrest =>
    obtain ⟨rfl, rfl⟩ := Prod.mk.inj (Option.some.inj hs)
    obtain ⟨hhad, -, -, -, hkind⟩ := CCoins.spend_spec hone
    have hcoins := h _ _ (unspent_eq_some.mpr
      ⟨rfl, CCoins.isPruned_eq_false_iff.mpr ⟨_, _, hhad⟩⟩)
    have hcreated := hcoins.outputs _ _ hhad
    refine .cons ⟨hcreated, ?_⟩ (ih (h.spends (spends_one hone)) undos' hrest)
    obtain ⟨_, _, _, _, _, _, hstorable⟩ := hcreated
    have hheight := hcoins.nHeight
    have hself : (toUInt32 (view.coinsFor txin.prevout.hash).nHeight : ℤ) =
        (view.coinsFor txin.prevout.hash).nHeight := by
      rw [toUInt32]
      omega
    split at hkind
    · rw [hkind]
      refine ⟨hstorable, ?_, hcoins.nVersion, ?_⟩ <;> simp only <;> omega
    · rw [hkind]
      refine ⟨hstorable, ?_, ?_, fun _ => rfl⟩ <;> simp only <;> decide

section Applied

variable {p : CBlockIndex} {vtx : List CTransaction} {undos : List CTxUndo}

theorem Sound.applied (h : Sound blockOf view) (happlied : Applied nHeight view vtx undos view')
    (hvtx : ∀ tx ∈ vtx, tx ∈ (blockOf p).vtx)
    (houtputs : ∀ tx ∈ vtx, ∀ o ∈ tx.vout, Undo.Storable o)
    (hversion : ∀ tx ∈ vtx, -2 ^ 31 ≤ tx.nVersion ∧ tx.nVersion < 2 ^ 31)
    (hheight : 1 ≤ nHeight ∧ nHeight < 2 ^ 30) :
    Sound blockOf view' ∧ Fits blockOf vtx undos := by
  induction happlied with
  | nil view => exact ⟨h, .nil⟩
  | @cons view mid view' tx undo vtx undos hspent _ _ _ ih =>
    have hcoins := soundCoins_fromTx (hvtx tx List.mem_cons_self)
      (houtputs tx List.mem_cons_self) (hversion tx List.mem_cons_self) hheight
    have hmid : Sound blockOf (mid.addOutputs tx nHeight) :=
      (h.spends (spends_spendInputs hspent)).putCoins fun _ => by
        rw [hcoins.tidy.cleanup]
        exact hcoins
    obtain ⟨hsound, hfits⟩ := ih hmid (fun tx' htx' => hvtx tx' (List.mem_cons_of_mem _ htx'))
      (fun tx' htx' => houtputs tx' (List.mem_cons_of_mem _ htx'))
      (fun tx' htx' => hversion tx' (List.mem_cons_of_mem _ htx'))
    exact ⟨hsound, .cons (h.fitsTx hspent) hfits⟩

theorem FitsTx.recorded_eq (hdistinct : Distinct blockOf) {undo undo' : CTxUndo}
    (h : FitsTx blockOf tx undo) (h' : FitsTx blockOf tx undo') :
    recorded undo.vprevout = recorded undo'.vprevout := by
  unfold FitsTx at h h'
  generalize inputsOf tx = vin at h h'
  generalize undo.vprevout = rs at h
  generalize undo'.vprevout = rs' at h'
  induction h generalizing rs' with
  | nil => cases h'; rfl
  | cons hr _ ih =>
    cases h' with
    | cons hr' hrest' =>
      simp only [recorded, List.map_cons, List.sum_cons]
      rw [hr.1.eq hdistinct hr'.1]
      exact congrArg _ (ih _ hrest')

/-- What a block spends is worth the same whenever it is connected. -/
theorem Fits.spentValue_eq (hdistinct : Distinct blockOf) {undos' : List CTxUndo}
    (h : Fits blockOf vtx undos) (h' : Fits blockOf vtx undos') :
    spentValue undos = spentValue undos' := by
  induction h generalizing undos' with
  | nil => cases h'; rfl
  | cons hfits _ ih =>
    cases h' with
    | cons hfits' hrest' =>
      simp only [spentValue, List.map_cons, List.sum_cons]
      rw [hfits.recorded_eq hdistinct hfits']
      exact congrArg _ (ih hrest')

end Applied

/-! Taking back. -/

section Disconnect

variable {X : CCoinsViewCache}

theorem soundCoins_restore {d : CCoins} {undo : CTxInUndo}
    (hd : d.isPruned = false → SoundCoins blockOf txid d)
    (hcreated : Created blockOf txid n undo.txout) (hwritable : Undo.Writable undo)
    (hclean : (d.restore n undo).2 = true) :
    SoundCoins blockOf txid (d.restore n undo).1.cleanup := by
  have hnull := isNull_of_nonneg hwritable.txout.nonneg
  have houtput : ∀ (vout : List CTxOut) (m : ℕ) (o : CTxOut),
      Slots.held CTxOut.isNull (Slots.place CTxOut.null vout n undo.txout) m = some o →
      (∀ o, Slots.held CTxOut.isNull vout m = some o → Created blockOf txid m o) →
      Created blockOf txid m o := by
    intro vout m o ho hold
    rw [Slots.held_place CCoins.isNull_null hnull] at ho
    split at ho
    · next hm => rw [hm, ← Option.some.inj ho]; exact hcreated
    · exact hold o ho
  by_cases hheight : undo.nHeight ≠ 0
  · have hbase : (d.restore n undo).1 = (CCoins.empty.restore n undo).1 := by
      rw [CCoins.restore_of_height hheight, CCoins.restore_of_height hheight]
    have hlt := hwritable.nHeight
    have hself : toInt32 undo.nHeight = undo.nHeight := toInt32_eq_self (by omega) (by omega)
    rw [hbase]
    refine ⟨CCoins.tidy_restore Slots.Tidy.nil hnull, ?_, ?_, fun m o ho => ?_⟩
    · rw [CCoins.restore_of_height hheight]
      simp only [CCoins.cleanup, hself]
      omega
    · rw [CCoins.restore_of_height hheight]
      exact hwritable.nVersion
    · rw [CCoins.output_cleanup, CCoins.restore_of_height hheight] at ho
      exact houtput [] m o ho fun _ h =>
        absurd h.symm (Option.some_ne_none _)
  · simp only [CCoins.restore, if_neg hheight, Bool.and_eq_true, Bool.not_eq_true'] at hclean
    have hcoins := hd hclean.1
    refine ⟨CCoins.tidy_restore hcoins.tidy hnull, ?_, ?_, fun m o ho => ?_⟩
    · simp only [CCoins.restore, if_neg hheight]
      exact hcoins.nHeight
    · simp only [CCoins.restore, if_neg hheight]
      exact hcoins.nVersion
    · simp only [CCoins.output_cleanup, CCoins.restore, if_neg hheight] at ho
      exact houtput d.vout m o ho fun o ho => hcoins.outputs m o ho

theorem Sound.coinsFor (h : Sound blockOf view) (hpruned : (view.coinsFor txid).isPruned = false) :
    SoundCoins blockOf txid (view.coinsFor txid) :=
  h txid _ (unspent_eq_some.mpr ⟨rfl, hpruned⟩)

/-- Inputs that fit are put back, with all they are worth. -/
theorem Sound.restoreInputs (h : Sound blockOf view) {vin : List CTxIn} {rs : List CTxInUndo}
    (hfits : List.Forall₂ (FitsInput blockOf) vin rs)
    (hclean : (restoreInputs view (vin.zip rs)).2 = true) :
    Sound blockOf (restoreInputs view (vin.zip rs)).1 ∧
      (restoreInputs view (vin.zip rs)).1.total = view.total + recorded rs := by
  induction hfits with
  | nil => exact ⟨h, (Int.add_zero _).symm⟩
  | @cons txin r vin rs hr _ ih =>
    rw [List.zip_cons_cons, restoreInputs_cons] at hclean ⊢
    obtain ⟨hrest, hone⟩ := Bool.and_eq_true_iff.mp hclean
    obtain ⟨hsound, htotal⟩ := ih hrest
    refine ⟨hsound.putCoins fun _ => soundCoins_restore hsound.coinsFor hr.1 hr.2 hone, ?_⟩
    rw [total_putCoins, CCoins.total_restore hone (isNull_of_nonneg hr.2.txout.nonneg), htotal]
    simp only [recorded, List.map_cons, List.sum_cons]
    linarith

/-- Spendable outputs are kept when the others are cleared. -/
theorem total_clearUnspendable {c : CCoins} (h : SoundCoins blockOf txid c) :
    c.clearUnspendable.total = c.total := by
  refine CCoins.total_congr fun n => ?_
  rw [CCoins.clearUnspendable, CCoins.output_cleanup, CCoins.output, CCoins.output, Slots.held,
    Slots.held, List.getElem?_map]
  cases hget : c.vout[n]? with
  | none => rfl
  | some o =>
    cases hu : Script.isUnspendable o.scriptPubKey with
    | false => simp [hu]
    | true =>
      cases hnull : o.isNull with
      | true =>
        rw [Option.map_some, if_pos hu]
        simp [Option.filter, hnull, CCoins.isNull_null]
      | false =>
        obtain ⟨_, _, _, _, _, hspendable, _⟩ :=
          h.outputs n o (Slots.held_eq_some.mpr ⟨hget, hnull⟩)
        rw [hu] at hspendable
        cases hspendable

/-- Outputs that were found are taken away, with all they are worth. -/
theorem Sound.clearOutputs (h : Sound blockOf view) (hnull : ∀ o ∈ tx.vout, o.isNull = false)
    (hclean : (clearOutputs view tx nHeight).2 = true) :
    Sound blockOf (clearOutputs view tx nHeight).1 ∧
      (clearOutputs view tx nHeight).1.total =
        view.total - (valueOut tx - CTransaction.unspendable tx) := by
  refine ⟨h.putCoins (fun hne => nomatch hne), ?_⟩
  have htotal : (view.coinsFor tx.hash).total = (CCoins.fromTx tx nHeight).total := by
    rw [Validation.clearOutputs] at hclean
    simp only [CTransaction.getHash, CCoins.equal, Bool.or_eq_true, Bool.and_eq_true,
      beq_iff_eq] at hclean
    have hvout : ∀ (b : Prop) [Decidable b] (c : CCoins) (v : ℤ),
        (if b then { c with nVersion := v } else c).vout = c.vout := by
      intro b _ c v
      split <;> rfl
    have hcleared : (view.coinsFor tx.hash).total =
        (view.coinsFor tx.hash).clearUnspendable.total := by
      cases hpruned : (view.coinsFor tx.hash).isPruned with
      | true =>
        rw [CCoins.total_of_isPruned hpruned,
          CCoins.total_of_isPruned (CCoins.isPruned_clearUnspendable hpruned)]
      | false => exact (total_clearUnspendable (h.coinsFor hpruned)).symm
    rw [hcleared]
    rcases hclean with ⟨hleft, hright⟩ | heq
    · rw [CCoins.isPruned, hvout] at hleft
      rw [CCoins.total_of_isPruned hleft, CCoins.total_of_isPruned hright]
    · have hsame := congrArg CCoins.vout heq
      rw [hvout] at hsame
      rw [CCoins.total, hsame]
      rfl
  rw [Validation.clearOutputs, total_putCoins, CTransaction.getHash, htotal,
    CCoins.total_fromTx hnull]
  exact Int.add_zero _

theorem Sound.disconnectTransactions (h : Sound blockOf view) {vtx : List CTransaction}
    {undos : List CTxUndo} (hfits : Fits blockOf vtx undos)
    (hcb : ∀ tx ∈ vtx, tx.isCoinBase = false)
    (hnull : ∀ tx ∈ vtx, ∀ o ∈ tx.vout, o.isNull = false)
    (hclean : disconnectTransactions nHeight view (vtx.zip undos) = .ok (X, true)) :
    Sound blockOf X ∧
      X.total = view.total - (createdValue vtx - unspendableValue vtx) + spentValue undos := by
  induction hfits generalizing X with
  | nil =>
    cases hclean
    refine ⟨h, ?_⟩
    simp [createdValue, unspendableValue, spentValue]
  | @cons tx undo vtx undos hfit _ ih =>
    rw [List.zip_cons_cons] at hclean
    obtain ⟨view₁, hrest, hone⟩ := disconnectTransactions_clean.mp hclean
    obtain ⟨-, hcleared, hrestored, rfl⟩ := disconnectTransaction_clean.mp hone
    obtain ⟨hsound, htotal⟩ := ih (fun tx' htx' => hcb tx' (List.mem_cons_of_mem _ htx'))
      (fun tx' htx' => hnull tx' (List.mem_cons_of_mem _ htx')) hrest
    obtain ⟨hsound', htotal'⟩ := hsound.clearOutputs (hnull tx List.mem_cons_self) hcleared
    simp only [FitsTx, inputsOf, hcb tx List.mem_cons_self, Bool.false_eq_true, if_false] at hfit
    obtain ⟨hsound'', htotal''⟩ := hsound'.restoreInputs hfit hrestored
    refine ⟨hsound'', ?_⟩
    rw [htotal'', htotal', htotal]
    simp only [createdValue, unspendableValue, spentValue, List.map_cons, List.sum_cons]
    linarith

end Disconnect

end Scrypta.Supply
