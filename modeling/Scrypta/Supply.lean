import Scrypta.UndoConnect

/-! What the coins of a view are worth, and what the transactions of a block and taking them back
change in it. -/

namespace Scrypta

open Slots Validation

/-- The outputs of a transaction that no one can spend. -/
def CTransaction.unspendable (tx : CTransaction) : CAmount :=
  ((tx.vout.filter fun o => Script.isUnspendable o.scriptPubKey).map CTxOut.nValue).sum

namespace CCoins

variable {c c' d : CCoins} {n : ℕ} {undo : CTxInUndo}

def total (c : CCoins) : CAmount := Slots.total CTxOut.isNull CTxOut.nValue c.vout

theorem total_congr (h : ∀ n, c.output n = d.output n) : c.total = d.total := Slots.total_congr h

@[simp] theorem total_cleanup (c : CCoins) : c.cleanup.total = c.total :=
  total_congr (output_cleanup c)

theorem total_of_isPruned (h : c.isPruned = true) : c.total = 0 :=
  Slots.total_eq_zero (isPruned_iff.mp h)

theorem total_spend (h : c.spend n = some (c', undo)) :
    c'.total = c.total - undo.txout.nValue := by
  obtain ⟨hhad, hrest, -⟩ := spend_spec h
  have hset : c'.total = Slots.total CTxOut.isNull CTxOut.nValue (c.vout.set n CTxOut.null) :=
    Slots.total_congr fun m => (hrest m).trans (held_set_null isNull_null c.vout n m).symm
  rw [hset, Slots.total_set_null isNull_null hhad]
  rfl

/-- An output that fits is added. -/
theorem total_restore (hclean : (d.restore n undo).2 = true) (hnull : undo.txout.isNull = false) :
    (d.restore n undo).1.total = d.total + undo.txout.nValue := by
  by_cases hheight : undo.nHeight ≠ 0
  · simp only [restore, if_pos hheight, Bool.and_eq_true] at hclean
    rw [restore_of_height hheight, total_of_isPruned hclean.1]
    exact Slots.total_place isNull_null hnull (held_nil n)
  · simp only [restore, if_neg hheight, Bool.and_eq_true, Bool.not_eq_true', isAvailable_eq,
      Option.isSome_eq_false_iff, Option.isNone_iff_eq_none] at hclean
    simp only [restore, if_neg hheight]
    exact Slots.total_place isNull_null hnull hclean.2

/-- The coins of a new transaction are its outputs without those that no one can spend. -/
theorem total_fromTx {tx : CTransaction} (h : ∀ o ∈ tx.vout, o.isNull = false) (nHeight : ℤ) :
    (fromTx tx nHeight).total = valueOut tx - tx.unspendable := by
  have hsum : ∀ l : List CTxOut, (∀ o ∈ l, o.isNull = false) →
      Slots.total CTxOut.isNull CTxOut.nValue (l.map fun o =>
        if Script.isUnspendable o.scriptPubKey then CTxOut.null else o) +
        ((l.filter fun o => Script.isUnspendable o.scriptPubKey).map CTxOut.nValue).sum =
      (l.map CTxOut.nValue).sum := by
    intro l hl
    induction l with
    | nil => rfl
    | cons o l ih =>
      have hrest := ih fun o' ho' => hl o' (List.mem_cons_of_mem _ ho')
      rw [List.map_cons, Slots.total_cons, List.map_cons, List.sum_cons, ← hrest]
      cases hu : Script.isUnspendable o.scriptPubKey with
      | true =>
        simp only [List.filter_cons, hu, if_true, isNull_null, List.map_cons, List.sum_cons]
        linarith
      | false =>
        simp only [List.filter_cons, hu, Bool.false_eq_true, if_false, hl o List.mem_cons_self]
        linarith
  have hvout : (fromTx tx nHeight).total = Slots.total CTxOut.isNull CTxOut.nValue
      (tx.vout.map fun o => if Script.isUnspendable o.scriptPubKey then CTxOut.null else o) :=
    total_cleanup _
  rw [hvout, CTransaction.unspendable, valueOut]
  linarith [hsum tx.vout h]

end CCoins

/-! Views. -/

namespace CCoinsViewCache

variable {view mid : CCoinsViewCache} {nHeight : ℤ} {tx : CTransaction}

def total (view : CCoinsViewCache) : CAmount := view.cacheCoins.sum CCoins.total

theorem total_coinsFor_of_unspent {txid : Uint256} (h : view.unspent txid = none) :
    (view.coinsFor txid).total = 0 :=
  CCoins.total_of_isPruned (CCoins.isPruned_iff.mpr (unspent_eq_none.mp h))

theorem total_putCoins (view : CCoinsViewCache) (txid : Uint256) (c : CCoins) :
    (view.putCoins txid c).total = view.total - (view.coinsFor txid).total + c.total := by
  rw [total, putCoins, Dict.sum_set, CCoins.total_cleanup, coinsFor, accessCoins]
  cases view.cacheCoins.find txid <;> rfl

theorem total_setBestBlock (view : CCoinsViewCache) (hashBlock : Uint256) :
    (view.setBestBlock hashBlock).total = view.total := rfl

theorem total_addOutputs (h : view.unspent tx.hash = none) (nHeight : ℤ) :
    (view.addOutputs tx nHeight).total = view.total + (CCoins.fromTx tx nHeight).total := by
  rw [addOutputs, total_putCoins, CTransaction.getHash, total_coinsFor_of_unspent h]
  linarith

/-- The value of the outputs in some records. -/
def recorded (undos : List CTxInUndo) : CAmount := (undos.map fun r => r.txout.nValue).sum

theorem total_spendInputs {vin : List CTxIn} {undos : List CTxInUndo}
    (h : view.spendInputs vin = some (mid, undos)) : mid.total = view.total - recorded undos := by
  induction vin generalizing view undos with
  | nil =>
    cases h
    exact (sub_zero _).symm
  | cons txin vin ih =>
    simp only [spendInputs] at h
    split at h
    · cases h
    next c' undo hone =>
    split at h
    · cases h
    next view₂ undos' hrest =>
    obtain ⟨rfl, rfl⟩ := Prod.mk.inj (Option.some.inj h)
    rw [ih hrest, total_putCoins, CCoins.total_spend hone, recorded, recorded, List.map_cons,
      List.sum_cons]
    linarith

theorem getOutputFor_of_output {txin : CTxIn} {o : CTxOut}
    (h : view.output txin.prevout.hash txin.prevout.n.toNat = some o) :
    view.getOutputFor txin = o := by
  rw [getOutputFor, List.getD_eq_getElem?_getD, (held_eq_some.mp h).1, Option.getD_some]

/-- The records have the outputs that the inputs name. -/
theorem spendInputs_txouts {vin : List CTxIn} {undos : List CTxInUndo}
    (h : view.spendInputs vin = some (mid, undos)) :
    undos.map CTxInUndo.txout = vin.map view.getOutputFor := by
  induction vin generalizing view undos with
  | nil =>
    cases h
    rfl
  | cons txin vin ih =>
    simp only [spendInputs] at h
    split at h
    · cases h
    next c' undo hone =>
    split at h
    · cases h
    next view₂ undos' hrest =>
    obtain ⟨rfl, rfl⟩ := Prod.mk.inj (Option.some.inj h)
    have hspends := spends_one hone
    have hfirst : view.getOutputFor txin = undo.txout :=
      getOutputFor_of_output (CCoins.spend_spec hone).1
    have hothers : ∀ txin' ∈ vin,
        (view.putCoins txin.prevout.hash c').getOutputFor txin' = view.getOutputFor txin' := by
      intro txin' hin
      have hhad := (spends_spendInputs hrest).had _ (List.mem_map_of_mem hin)
      obtain ⟨o, ho⟩ := Option.ne_none_iff_exists'.mp hhad
      have hbefore := hspends.output txin'.prevout.hash txin'.prevout.n.toNat
      rw [ho] at hbefore
      split at hbefore
      · cases hbefore
      · rw [getOutputFor_of_output ho, getOutputFor_of_output hbefore.symm]
    rw [List.map_cons, List.map_cons, hfirst, ih hrest, List.map_congr_left hothers]

/-- The inputs that a transaction spends. -/
def inputsOf (tx : CTransaction) : List CTxIn := if tx.isCoinBase then [] else tx.vin

theorem getValueIn_eq_recorded {undos : List CTxInUndo}
    (h : view.spendInputs (inputsOf tx) = some (mid, undos)) :
    view.getValueIn tx = recorded undos := by
  have htxouts := spendInputs_txouts h
  have hvalues := congrArg (fun l => (l.map CTxOut.nValue).sum) htxouts
  simp only [List.map_map] at hvalues
  rw [recorded, getValueIn]
  refine Eq.trans ?_ hvalues.symm
  cases hcb : tx.isCoinBase <;> simp [inputsOf, hcb, Function.comp_def]

/-- Transactions that were applied, with the undo data of each. -/
inductive Applied (nHeight : ℤ) :
    CCoinsViewCache → List CTransaction → List CTxUndo → CCoinsViewCache → Prop
  | nil (view : CCoinsViewCache) : Applied nHeight view [] [] view
  | cons {view mid view' : CCoinsViewCache} {tx : CTransaction} {undo : CTxUndo}
      {vtx : List CTransaction} {undos : List CTxUndo}
      (spent : view.spendInputs (inputsOf tx) = some (mid, undo.vprevout))
      (fresh : mid.unspent tx.hash = none)
      (fee : tx.isCoinBase = false → tx.isCoinStake = false → valueOut tx ≤ view.getValueIn tx)
      (rest : Applied nHeight (mid.addOutputs tx nHeight) vtx undos view') :
      Applied nHeight view (tx :: vtx) (undo :: undos) view'

theorem updateCoins_of_spent {undo : CTxUndo}
    (h : view.spendInputs (inputsOf tx) = some (mid, undo.vprevout)) :
    view.updateCoins tx nHeight = some (mid.addOutputs tx nHeight, undo) := by
  rw [updateCoins]
  cases hcb : tx.isCoinBase with
  | true =>
    simp only [inputsOf, hcb, if_true] at h
    obtain ⟨rfl, hundo⟩ := Prod.mk.inj (Option.some.inj h)
    obtain ⟨_⟩ := undo
    cases hundo
    rfl
  | false =>
    simp only [inputsOf, hcb, Bool.false_eq_true, if_false] at h
    simp only [Bool.false_eq_true, if_false, h]

theorem afterTransaction_of_spent {undo : CTxUndo}
    (h : view.spendInputs (inputsOf tx) = some (mid, undo.vprevout)) :
    afterTransaction view nHeight tx = mid.addOutputs tx nHeight := by
  rw [afterTransaction, updateCoins_of_spent h]
  rfl

/-- The value of all records of a block. -/
def spentValue (undos : List CTxUndo) : CAmount :=
  (undos.map fun undo => recorded undo.vprevout).sum

def createdValue (vtx : List CTransaction) : CAmount := (vtx.map valueOut).sum

def unspendableValue (vtx : List CTransaction) : CAmount := (vtx.map CTransaction.unspendable).sum

section Applied

variable {view' : CCoinsViewCache} {vtx : List CTransaction} {undos : List CTxUndo}

/-- The transactions add what they create and take what they spend. -/
theorem Applied.total (h : Applied nHeight view vtx undos view')
    (hnull : ∀ tx ∈ vtx, ∀ o ∈ tx.vout, o.isNull = false) :
    view'.total = view.total + createdValue vtx - unspendableValue vtx - spentValue undos := by
  induction h with
  | nil view => simp [createdValue, unspendableValue, spentValue]
  | @cons view mid view' tx undo vtx undos hspent hfresh _ _ ih =>
    rw [ih fun tx' htx' => hnull tx' (List.mem_cons_of_mem _ htx'), total_addOutputs hfresh,
      total_spendInputs hspent, CCoins.total_fromTx (hnull tx List.mem_cons_self)]
    simp only [createdValue, unspendableValue, spentValue, List.map_cons, List.sum_cons]
    linarith

theorem Applied.blockMint (h : Applied nHeight view vtx undos view') :
    Validation.blockMint nHeight view vtx = createdValue vtx - spentValue undos := by
  induction h with
  | nil view => rfl
  | cons hspent _ _ _ ih =>
    rw [Validation.blockMint, afterTransaction_of_spent hspent, ih, getValueIn_eq_recorded hspent]
    simp only [createdValue, spentValue, List.map_cons, List.sum_cons]
    linarith

end Applied

end CCoinsViewCache

namespace Validation

open CCoinsViewCache

/-- The transactions of an accepted block were applied, and no ordinary one creates value. -/
theorem applied_of_connectTransactions {par : Params} {orc : Oracles} {env : Env} {nHeight : ℤ}
    {flags : ℕ} {fScriptChecks : Bool} {t t' : Tally} {view : CCoinsViewCache}
    {vtx done rest : List CTransaction} {undos : List CTxUndo} (hnew : NewTxs view vtx)
    (hvtx : vtx = done ++ rest) (hp : Progress view nHeight done t.view)
    (h : connectTransactions par orc env nHeight flags fScriptChecks t rest = .ok (t', undos)) :
    Applied nHeight t.view rest undos t'.view := by
  induction rest generalizing done t undos with
  | nil =>
    cases h
    exact .nil _
  | cons tx rest ih =>
    simp only [connectTransactions, bind_ok] at h
    obtain ⟨⟨t₁, undo⟩, hone, ⟨t₂, undos'⟩, hrest, h⟩ := h
    cases h
    have hupdate := (connectTransaction_ok hone).1
    obtain ⟨-, hfresh, hp'⟩ := hnew.step hvtx hp hupdate
    have hothers := ih (by rw [hvtx, List.append_assoc]; rfl) hp' hrest
    cases hcb : tx.isCoinBase with
    | true =>
      have hinputs : t.view.spendInputs (inputsOf tx) = some (t.view, []) := by
        rw [inputsOf, if_pos hcb]
        rfl
      rw [updateCoins, if_pos hcb] at hupdate
      obtain ⟨hview, rfl⟩ := Prod.mk.inj (Option.some.inj hupdate)
      rw [← hview] at hothers
      exact .cons hinputs hfresh (fun hno => by rw [hcb] at hno; cases hno) hothers
    | false =>
      obtain ⟨mid, records, hspend, hspends, hview, rfl⟩ := updateCoins_of_inputs hcb hupdate
      rw [hview] at hothers
      refine .cons (by rw [inputsOf, hcb]; exact hspend) (hspends.none hfresh) (fun _ hcs => ?_)
        hothers
      simp only [connectTransaction, tallyInputs, hcb, Bool.false_eq_true, if_false, bind_ok]
        at hone
      obtain ⟨_, -, _, ⟨_, -, _, -, _, -, _, hinputs, -⟩, -⟩ := hone
      simp only [checkInputs, hcb, Bool.false_eq_true, if_false, bind_ok] at hinputs
      obtain ⟨_, -, _, -, nValueIn, hvalues, _, hfee, -⟩ := hinputs
      simp only [checkFee, hcs, Bool.false_eq_true, if_false, bind_ok, require_ok,
        decide_eq_true_eq, present_ok] at hfee
      obtain ⟨nValueOut, hout, _, hle, -⟩ := hfee
      rw [getValueOut_eq hout, (checkInputValues_ok hvalues).2, Int.zero_add] at hle
      rw [getValueIn, hcb]
      exact hle

end Validation

end Scrypta
