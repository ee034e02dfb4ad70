import Mathlib.Algebra.BigOperators.Group.List.Basic
import Scrypta.DisconnectBlock
import Scrypta.Undo

/-! Taking back a block that was connected. The undo data of a transaction whose outputs the block
uses up does not say that it was a coinstake, and it is written without the sign of its version.
Those are the blocks that are not taken back as they were connected. -/

namespace Scrypta

namespace CCoinsViewCache

variable {view view₁ view₂ mid : CCoinsViewCache} {nHeight : ℤ} {tx : CTransaction}
  {vtx done rest : List CTransaction} {undos : List CTxUndo}

/-- The updates of a list of transactions. -/
def updateAll (nHeight : ℤ) :
    CCoinsViewCache → List CTransaction → Option (CCoinsViewCache × List CTxUndo)
  | view, [] => some (view, [])
  | view, tx :: vtx =>
    match view.updateCoins tx nHeight with
    | none => none
    | some (view, undo) =>
      match updateAll nHeight view vtx with
      | none => none
      | some (view, undos) => some (view, undo :: undos)

theorem updateAll_cons (h : view.updateAll nHeight (tx :: vtx) = some (view₂, undos)) :
    ∃ view₁ undo undos', view.updateCoins tx nHeight = some (view₁, undo) ∧
      view₁.updateAll nHeight vtx = some (view₂, undos') ∧ undos = undo :: undos' := by
  rw [updateAll] at h
  split at h
  · cases h
  next view₁ undo hone =>
  split at h
  · cases h
  next view₂ undos' hrest =>
  obtain ⟨rfl, rfl⟩ := Prod.mk.inj (Option.some.inj h)
  exact ⟨view₁, undo, undos', hone, hrest, rfl⟩

theorem length_updateAll (h : view.updateAll nHeight vtx = some (view₂, undos)) :
    undos.length = vtx.length := by
  induction vtx generalizing view undos with
  | nil =>
    cases h
    rfl
  | cons tx vtx ih =>
    obtain ⟨_, _, _, -, hrest, rfl⟩ := updateAll_cons h
    rw [List.length_cons, List.length_cons, ih hrest]

theorem updateCoins_of_inputs {undo : CTxUndo} (hcb : tx.isCoinBase = false)
    (h : view.updateCoins tx nHeight = some (view₂, undo)) :
    ∃ mid undos, view.spendInputs tx.vin = some (mid, undos) ∧
      Spends view (spentBy [tx]) mid ∧ view₂ = mid.addOutputs tx nHeight ∧ undo = ⟨undos⟩ := by
  unfold updateCoins at h
  rw [hcb] at h
  simp only [Bool.false_eq_true, if_false] at h
  split at h
  · cases h
  next mid undos hspend =>
  obtain ⟨rfl, rfl⟩ := Prod.mk.inj (Option.some.inj h)
  have hspent : spentBy [tx] = tx.prevouts := by simp [spentBy, hcb]
  exact ⟨mid, undos, hspend, hspent ▸ spends_spendInputs hspend, rfl, rfl⟩

theorem mem_spendInputs {vin : List CTxIn} {undos : List CTxInUndo}
    (h : view.spendInputs vin = some (mid, undos)) :
    undos.length = vin.length ∧ ∀ r ∈ undos, ∃ txin ∈ vin, ∃ c,
      view.unspent txin.prevout.hash = some c ∧
      c.output txin.prevout.n.toNat = some r.txout ∧
      (r = ⟨r.txout, false, false, 0, 0⟩ ∨ mid.unspent txin.prevout.hash = none ∧
        r = ⟨r.txout, c.fCoinBase, c.fCoinStake, toUInt32 c.nHeight, c.nVersion⟩) := by
  induction vin generalizing view undos with
  | nil =>
    cases h
    exact ⟨rfl, fun _ hr => absurd hr List.not_mem_nil⟩
  | cons txin vin ih =>
    simp only [spendInputs] at h
    split at h
    · cases h
    next c' undo hone =>
    split at h
    · cases h
    next view₂ undos' hrest =>
    obtain ⟨rfl, rfl⟩ := Prod.mk.inj (Option.some.inj h)
    have hspends := spends_one hone
    obtain ⟨hlen, hrecords⟩ := ih hrest
    refine ⟨by rw [List.length_cons, List.length_cons, hlen], fun r hr => ?_⟩
    rcases List.mem_cons.mp hr with rfl | hr
    · obtain ⟨hhad, -, -, -, hundo⟩ := CCoins.spend_spec hone
      have hc := unspent_eq_some.mpr ⟨rfl, CCoins.isPruned_eq_false_iff.mpr ⟨_, _, hhad⟩⟩
      refine ⟨txin, List.mem_cons_self, _, hc, hhad, ?_⟩
      cases hpruned : c'.isPruned with
      | false =>
        rw [hpruned] at hundo
        exact .inl hundo
      | true =>
        rw [hpruned, if_pos rfl] at hundo
        refine .inr ⟨(spends_spendInputs hrest).none ?_, hundo⟩
        rw [unspent_putCoins, if_pos rfl, if_pos hpruned]
    · obtain ⟨txin', hin, c₁, hc₁, hout, hkind⟩ := hrecords r hr
      obtain ⟨c, hc, hbare⟩ := hspends.bare _ c₁ hc₁
      refine ⟨txin', List.mem_cons_of_mem _ hin, c, hc, ?_, ?_⟩
      · have hbefore := hspends.output txin'.prevout.hash txin'.prevout.n.toNat
        rw [output_eq, hc₁, Option.bind_some, hout, output_eq, hc, Option.bind_some] at hbefore
        split at hbefore
        · cases hbefore
        · exact hbefore.symm
      · refine hkind.imp id fun hrec => ⟨hrec.1, ?_⟩
        have heq := hrec.2
        have hcoinbase : c₁.fCoinBase = c.fCoinBase := (CCoins.mk.inj hbare).1
        have hcoinstake : c₁.fCoinStake = c.fCoinStake := (CCoins.mk.inj hbare).2.1
        have hheight : c₁.nHeight = c.nHeight := (CCoins.mk.inj hbare).2.2.2.1
        have hversion : c₁.nVersion = c.nVersion := (CCoins.mk.inj hbare).2.2.2.2
        rw [hcoinbase, hcoinstake, hheight, hversion] at heq
        exact heq

/-- A block uses up the coins of a transaction: it spends every output that there is. -/
structure UsesUp (view : CCoinsViewCache) (nHeight : ℤ) (vtx : List CTransaction) (txid : Uint256)
    (e : CCoins) : Prop where
  origin : view.origin nHeight vtx txid = some e
  unspent : e.isPruned = false
  spent : ∀ n, e.output n ≠ none → ∃ o ∈ spentBy vtx, o.Names txid n

/-- The undo data keeps what is known of every transaction that is used up. -/
def Recoverable (view : CCoinsViewCache) (nHeight : ℤ) (vtx : List CTransaction) : Prop :=
  ∀ txid e, UsesUp view nHeight vtx txid e → e.Kept

/-- Transactions of a block that are new to a view. -/
structure NewTxs (view : CCoinsViewCache) (vtx : List CTransaction) : Prop where
  fresh : ∀ tx ∈ vtx, view.unspent tx.hash = none
  distinct : ∀ tx ∈ vtx, ∀ tx' ∈ vtx, tx'.hash = tx.hash → tx' = tx
  notNull : ∀ tx ∈ vtx, ∀ o ∈ tx.vout, o.isNull = false
  inputs : ∀ tx ∈ vtx.tail, tx.isCoinBase = false ∧ tx.vin ≠ []

theorem NewTxs.canonical (h : NewTxs view vtx) (htx : tx ∈ vtx) :
    ∀ o ∈ tx.vout, o.isNull = true → o = CTxOut.null := by
  intro o ho hnull
  rw [h.notNull tx htx o ho] at hnull
  cases hnull

theorem NewTxs.step (h : NewTxs view vtx) (hvtx : vtx = done ++ tx :: rest)
    (hp : Progress view nHeight done view₁) {undo : CTxUndo}
    (hupdate : view₁.updateCoins tx nHeight = some (view₂, undo)) :
    tx.hash ∉ done.map CTransaction.hash ∧ view₁.unspent tx.hash = none ∧
      Progress view nHeight (done ++ [tx]) view₂ := by
  have htx : tx ∈ vtx := by simp [hvtx]
  have hnew : tx.hash ∉ done.map CTransaction.hash := by
    cases done with
    | nil => exact nofun
    | cons cb done =>
      have htail : tx ∈ vtx.tail := by simp [hvtx]
      obtain ⟨hcb, hvin⟩ := h.inputs tx htail
      exact hp.hash_notMem hupdate hcb hvin fun tx' htx' =>
        h.distinct tx htx tx' (by rw [hvtx]; exact List.mem_append_left _ htx')
  exact ⟨hnew, hp.unspent_eq_none hnew (h.fresh tx htx),
    hp.step hupdate hnew (h.fresh tx htx) (h.canonical htx)⟩

theorem NewTxs.progress (h : NewTxs view vtx) (hvtx : vtx = done ++ rest)
    (hp : Progress view nHeight done view₁)
    (hrun : view₁.updateAll nHeight rest = some (view₂, undos)) :
    Progress view nHeight vtx view₂ := by
  induction rest generalizing done view₁ undos with
  | nil =>
    cases hrun
    rw [hvtx, List.append_nil]
    exact hp
  | cons tx rest ih =>
    obtain ⟨_, _, _, hone, hrest, -⟩ := updateAll_cons hrun
    exact ih (by rw [hvtx, List.append_assoc]; rfl) (h.step hvtx hp hone).2.2 hrest

/-- What is left of the coins of a transaction goes back to its coins before the block. -/
theorem Progress.output_of_unspent (hp : Progress view nHeight done view₁) {txid : Uint256}
    {c : CCoins} (hc : view₁.unspent txid = some c) :
    ∃ e, view.origin nHeight done txid = some e ∧ c.bare = e.bare ∧
      ∀ n o, c.output n = some o → e.output n = some o := by
  obtain ⟨e, he, hbare⟩ := hp.bare txid c hc
  refine ⟨e, he, hbare, fun n o ho => ?_⟩
  have hout := hp.output txid n
  rw [output_eq, hc, Option.bind_some, ho, he, Option.bind_some] at hout
  split at hout
  · cases hout
  · exact hout.symm

/-- Coins that a transaction uses up are used up by the block. -/
theorem NewTxs.usesUp (h : NewTxs view vtx) (hvtx : vtx = done ++ tx :: rest)
    (hp : Progress view nHeight done view₁) (hspends : Spends view₁ (spentBy [tx]) mid)
    {txid : Uint256} {c : CCoins} (hc : view₁.unspent txid = some c)
    (hnone : mid.unspent txid = none) :
    ∃ e, UsesUp view nHeight vtx txid e ∧ c.bare = e.bare := by
  obtain ⟨e, he, hbare, houtput⟩ := hp.output_of_unspent hc
  have hfresh : ∀ tx' ∈ tx :: rest, view.unspent tx'.hash = none := fun tx' htx' =>
    h.fresh tx' (by rw [hvtx]; exact List.mem_append_right _ htx')
  have hspent : spentBy vtx = spentBy done ++ (spentBy [tx] ++ spentBy rest) := by
    rw [hvtx, ← List.singleton_append, spentBy, List.flatMap_append, List.flatMap_append]
    rfl
  refine ⟨e, ⟨hvtx ▸ origin_append_of_some he hfresh, ?_, fun n hn => ?_⟩, hbare⟩
  · obtain ⟨n, o, ho⟩ := CCoins.isPruned_eq_false_iff.mp (unspent_eq_some.mp hc).2
    exact CCoins.isPruned_eq_false_iff.mpr ⟨n, o, houtput n o ho⟩
  · by_contra hno
    have hmid := unspent_eq_none.mp hnone n
    rw [hspends.output, if_neg, hp.output, if_neg, he] at hmid
    · exact hn hmid
    · rintro ⟨o, ho, hname⟩
      exact hno ⟨o, by rw [hspent]; exact List.mem_append_left _ ho, hname⟩
    · rintro ⟨o, ho, hname⟩
      refine hno ⟨o, ?_, hname⟩
      rw [hspent]
      exact List.mem_append_right _ (List.mem_append_left _ ho)

/-- A record in the undo data of a block. -/
theorem NewTxs.record (h : NewTxs view vtx) (hvtx : vtx = done ++ rest) (hdone : done ≠ [])
    (hp : Progress view nHeight done view₁)
    (hrun : view₁.updateAll nHeight rest = some (view₂, undos)) :
    ∀ txundo ∈ undos, ∀ r ∈ txundo.vprevout, ∃ txid e n,
      view.origin nHeight vtx txid = some e ∧ e.output n = some r.txout ∧
      (r = ⟨r.txout, false, false, 0, 0⟩ ∨ UsesUp view nHeight vtx txid e ∧
        r = ⟨r.txout, e.fCoinBase, e.fCoinStake, toUInt32 e.nHeight, e.nVersion⟩) := by
  induction rest generalizing done view₁ undos with
  | nil =>
    cases hrun
    exact nofun
  | cons tx rest ih =>
    obtain ⟨view₁', undo, undos', hone, hrest, rfl⟩ := updateAll_cons hrun
    have hstep := h.step hvtx hp hone
    intro txundo htxundo r hr
    rcases List.mem_cons.mp htxundo with rfl | htxundo
    · have htail : tx ∈ vtx.tail := by
        cases done with
        | nil => exact absurd rfl hdone
        | cons cb done => simp [hvtx]
      obtain ⟨mid, undos, hspend, hspends, -, rfl⟩ :=
        updateCoins_of_inputs (h.inputs tx htail).1 hone
      obtain ⟨txin, -, c, hc, hout, hkind⟩ := (mem_spendInputs hspend).2 r hr
      obtain ⟨e, he, hbare, houtput⟩ := hp.output_of_unspent hc
      have hfresh : ∀ tx' ∈ tx :: rest, view.unspent tx'.hash = none := fun tx' htx' =>
        h.fresh tx' (by rw [hvtx]; exact List.mem_append_right _ htx')
      have horigin := origin_append_of_some he hfresh
      rw [← hvtx] at horigin
      refine ⟨txin.prevout.hash, e, _, horigin, houtput _ _ hout, hkind.imp id ?_⟩
      rintro ⟨hnone, heq⟩
      obtain ⟨e', huses, -⟩ := h.usesUp hvtx hp hspends hc hnone
      obtain rfl : e' = e := Option.some.inj (huses.origin.symm.trans horigin)
      obtain ⟨hcoinbase, hcoinstake, -, hheight, hversion⟩ := CCoins.mk.inj hbare
      rw [hcoinbase, hcoinstake, hheight, hversion] at heq
      exact ⟨huses, heq⟩
    · exact ih (by rw [hvtx, List.append_assoc]; rfl) (by simp) hstep.2.2 hrest txundo htxundo r hr

end CCoinsViewCache

namespace Validation

open CCoinsViewCache

section Undo

variable {view view₁ view₂ W X : CCoinsViewCache} {nHeight : ℤ} {tx : CTransaction}
  {vtx done rest : List CTransaction} {undos : List CTxUndo}

theorem connectTransactions_updateAll {par : Params} {orc : Oracles} {env : Env} {flags : ℕ}
    {fScriptChecks : Bool} {t t' : Tally}
    (h : connectTransactions par orc env nHeight flags fScriptChecks t vtx = .ok (t', undos)) :
    t.view.updateAll nHeight vtx = some (t'.view, undos) := by
  induction vtx generalizing t undos with
  | nil =>
    cases h
    rfl
  | cons tx vtx ih =>
    simp only [connectTransactions, bind_ok] at h
    obtain ⟨⟨t₁, undo⟩, hone, ⟨t₂, undos'⟩, hrest, h⟩ := h
    cases h
    rw [updateAll, (connectTransaction_ok hone).1]
    simp only [ih hrest]

/-- The transactions after the coinbase are taken back, the last one first. -/
theorem disconnectTransactions_updateAll (h : NewTxs view vtx)
    (hkept : Recoverable view nHeight vtx) (hversion : ∀ tx ∈ vtx, 0 ≤ tx.nVersion)
    (hvtx : vtx = done ++ rest) (hdone : done ≠ []) (hp : Progress view nHeight done view₁)
    (hrun : view₁.updateAll nHeight rest = some (view₂, undos))
    (hW : ∀ txid, W.unspent txid = view₂.unspent txid) :
    ∃ X, disconnectTransactions nHeight W (rest.zip undos) = .ok (X, true) ∧
      ∀ txid, X.unspent txid = view₁.unspent txid := by
  induction rest generalizing done view₁ undos with
  | nil =>
    cases hrun
    exact ⟨W, rfl, hW⟩
  | cons tx rest ih =>
    obtain ⟨view', undo, undos', hone, hrest, rfl⟩ := updateAll_cons hrun
    obtain ⟨-, hnew, hp'⟩ := h.step hvtx hp hone
    obtain ⟨W', hW', hsame⟩ := ih (by rw [hvtx, List.append_assoc]; rfl) (by simp) hp' hrest
    have htx : tx ∈ vtx := by simp [hvtx]
    have htail : tx ∈ vtx.tail := by
      cases done with
      | nil => exact absurd rfl hdone
      | cons cb done => simp [hvtx]
    obtain ⟨mid, records, hspend, hspends, rfl, rfl⟩ :=
      updateCoins_of_inputs (h.inputs tx htail).1 hone
    obtain ⟨hcleared, hmid⟩ := clearOutputs_spec (hspends.none hnew) (hversion tx htx)
      (CCoins.tidy_fromTx (h.canonical htx) nHeight) hsame
    obtain ⟨hrestored, hback⟩ := restoreInputs_spec hspend hp.tidy (fun txid c hc hnone => by
      obtain ⟨e, huses, hbare⟩ := h.usesUp hvtx hp hspends hc hnone
      exact (hkept txid e huses).of_bare hbare) hmid
    rw [List.zip_cons_cons]
    exact ⟨_, disconnectTransactions_clean.mpr ⟨W', hW', disconnectTransaction_clean.mpr
      ⟨(mem_spendInputs hspend).1, hcleared, hrestored, rfl⟩⟩, hback⟩

/-- Coins whose data besides the outputs comes from a record. -/
def FromRecord (R : CTxInUndo → Prop) (c : CCoins) : Prop :=
  c.fCoinStake = false ∧
    ∃ r, R r ∧ r.nHeight ≠ 0 ∧ c.nHeight = toInt32 r.nHeight ∧ c.nVersion = r.nVersion

/-- What was used up in `W` and is there in `X` comes from records. -/
def Rebuilt (R : CTxInUndo → Prop) (W X : CCoinsViewCache) : Prop :=
  ∀ txid c, W.unspent txid = none → X.unspent txid = some c → FromRecord R c

variable {R : CTxInUndo → Prop}

theorem rebuilt_self (R : CTxInUndo → Prop) (W : CCoinsViewCache) : Rebuilt R W W := by
  intro txid c hnone hc
  rw [hnone] at hc
  cases hc

theorem fromRecord_restore {d : CCoins} {n : ℕ} {undo : CTxInUndo}
    (hd : d.isPruned = false → FromRecord R d) (hundo : undo.nHeight ≠ 0 → R undo)
    (hclean : (d.restore n undo).2 = true) : FromRecord R (d.restore n undo).1 := by
  by_cases hheight : undo.nHeight ≠ 0
  · rw [CCoins.restore_of_height hheight]
    exact ⟨rfl, undo, hundo hheight, hheight, by simp only, rfl⟩
  · simp only [CCoins.restore, if_neg hheight, Bool.and_eq_true, Bool.not_eq_true'] at hclean ⊢
    exact hd hclean.1

theorem Rebuilt.restoreInputs {l : List (CTxIn × CTxInUndo)} (h : Rebuilt R W X)
    (hl : ∀ p ∈ l, p.2.nHeight ≠ 0 → R p.2) (hclean : (restoreInputs X l).2 = true) :
    Rebuilt R W (restoreInputs X l).1 := by
  induction l with
  | nil => exact h
  | cons p l ih =>
    obtain ⟨txin, undo⟩ := p
    rw [restoreInputs_cons] at hclean ⊢
    obtain ⟨hrest, hone⟩ := Bool.and_eq_true_iff.mp hclean
    have hX := ih (fun p hp => hl p (List.mem_cons_of_mem _ hp)) hrest
    intro txid c hnone hc
    rw [unspent_putCoins] at hc
    split at hc
    · next htxid =>
      split at hc
      · cases hc
      · obtain rfl := Option.some.inj hc
        exact fromRecord_restore
          (fun hpruned => hX _ _ (htxid ▸ hnone) (unspent_eq_some.mpr ⟨rfl, hpruned⟩))
          (hl _ List.mem_cons_self) hone
    · exact hX txid c hnone hc

theorem Rebuilt.clearOutputs (h : Rebuilt R W X) (tx : CTransaction) (nHeight : ℤ) :
    Rebuilt R W (clearOutputs X tx nHeight).1 := by
  intro txid c hnone hc
  rw [Validation.clearOutputs, unspent_putCoins] at hc
  split at hc
  · cases hc
  · exact h txid c hnone hc

/-- Outputs that were found again come from records, if they had been used up. -/
theorem Rebuilt.fromTx (h : Rebuilt R W X) (hversion : 0 ≤ tx.nVersion)
    (hclean : (Validation.clearOutputs X tx nHeight).2 = true) (hnone : W.unspent tx.hash = none)
    (hunspent : (CCoins.fromTx tx nHeight).isPruned = false) :
    FromRecord R (CCoins.fromTx tx nHeight) := by
  have hpos : ¬(CCoins.fromTx tx nHeight).nVersion < 0 := by
    simpa [CCoins.fromTx, CCoins.clearUnspendable, CCoins.cleanup] using hversion
  simp only [Validation.clearOutputs, CTransaction.getHash, if_neg hpos, CCoins.equal, hunspent,
    Bool.and_false, Bool.false_or, beq_iff_eq] at hclean
  have hpruned : (X.coinsFor tx.hash).isPruned = false := by
    by_contra hne
    have := CCoins.isPruned_clearUnspendable (Bool.of_not_eq_false hne)
    rw [hclean, hunspent] at this
    cases this
  have hcoins := h tx.hash _ hnone (unspent_eq_some.mpr ⟨rfl, hpruned⟩)
  rw [← hclean]
  exact hcoins

theorem disconnectTransactions_rebuilt {l : List (CTransaction × CTxUndo)}
    (hl : ∀ p ∈ l, ∀ r ∈ p.2.vprevout, R r) (hversion : ∀ p ∈ l, 0 ≤ p.1.nVersion)
    (hclean : disconnectTransactions nHeight W l = .ok (X, true)) :
    Rebuilt R W X ∧ ∀ p ∈ l, W.unspent p.1.hash = none →
      (CCoins.fromTx p.1 nHeight).isPruned = false →
      FromRecord R (CCoins.fromTx p.1 nHeight) := by
  induction l generalizing X with
  | nil =>
    cases hclean
    exact ⟨rebuilt_self R W, nofun⟩
  | cons p l ih =>
    obtain ⟨tx, txundo⟩ := p
    obtain ⟨W₁, hrest, hone⟩ := disconnectTransactions_clean.mp hclean
    obtain ⟨-, hcleared, hrestored, rfl⟩ := disconnectTransaction_clean.mp hone
    obtain ⟨hbuilt, hothers⟩ := ih (fun p hp => hl p (List.mem_cons_of_mem _ hp))
      (fun p hp => hversion p (List.mem_cons_of_mem _ hp)) hrest
    refine ⟨(hbuilt.clearOutputs tx nHeight).restoreInputs
      (fun p hp _ => hl _ List.mem_cons_self _ (List.of_mem_zip hp).2) hrestored, ?_⟩
    intro p hp hnone hunspent
    rcases List.mem_cons.mp hp with rfl | hp
    · exact hbuilt.fromTx (hversion _ List.mem_cons_self) hcleared hnone hunspent
    · exact hothers p hp hnone hunspent

/-- Coins that a block uses up are gone after it. -/
theorem unspent_eq_none_of_usesUp (hp : Progress view nHeight vtx W) {txid : Uint256} {e : CCoins}
    (huses : UsesUp view nHeight vtx txid e) : W.unspent txid = none := by
  refine CCoinsViewCache.unspent_eq_none.mpr fun n => ?_
  rw [hp.output, huses.origin, Option.bind_some]
  by_cases hn : e.output n = none
  · rw [hn]
    exact ite_self none
  · rw [if_pos (huses.spent n hn)]

end Undo

/-! Blocks as they come from the wire. -/

/-- An output that was read from the wire. -/
structure Received (o : CTxOut) : Prop where
  script : o.scriptPubKey.length + Compressor.nSpecialScripts < 2 ^ 32
  nRounds : o.nRounds = -10

structure ReceivedTxs (vtx : List CTransaction) : Prop where
  nVersion : ∀ tx ∈ vtx, 0 ≤ tx.nVersion ∧ tx.nVersion < 2 ^ 31
  outputs : ∀ tx ∈ vtx, ∀ o ∈ tx.vout, Received o
  distinct : ∀ tx ∈ vtx, ∀ tx' ∈ vtx, tx'.hash = tx.hash → tx' = tx

/-- Coins of transactions that were read from the wire. -/
structure ReceivedCoins (view : CCoinsViewCache) : Prop where
  tidy : view.Tidy
  nVersion : ∀ txid c, view.unspent txid = some c → -2 ^ 31 ≤ c.nVersion ∧ c.nVersion < 2 ^ 31
  outputs : ∀ txid n o, view.output txid n = some o → Received o

section Checks

variable {par : Params} {orc : Oracles} {env : Env} {view : CCoinsViewCache}

theorem checkOutputs_ok {tx : CTransaction} {vout : List CTxOut} {nValueOut : CAmount} {u : Unit}
    (h : checkOutputs par tx vout nValueOut = .ok u) :
    ∀ o ∈ vout, 0 ≤ o.nValue ∧ o.nValue ≤ par.nMaxMoneyOut := by
  induction vout generalizing nValueOut with
  | nil => exact nofun
  | cons txout vout ih =>
    simp only [checkOutputs, bind_ok, require_ok, decide_eq_true_eq] at h
    obtain ⟨_, -, _, hnonneg, _, hle, _, -, hrest⟩ := h
    intro o ho
    rcases List.mem_cons.mp ho with rfl | ho
    · exact ⟨hnonneg, hle⟩
    · exact ih hrest o ho

theorem checkTransaction_ok {tx : CTransaction} {u : Unit} (h : checkTransaction par tx = .ok u) :
    tx.vin ≠ [] ∧ tx.getSerializeSize ≤ maxBlockSize ∧
      ∀ o ∈ tx.vout, 0 ≤ o.nValue ∧ o.nValue ≤ par.nMaxMoneyOut := by
  simp only [checkTransaction, bind_ok, require_ok, decide_eq_true_eq] at h
  obtain ⟨_, hvin, _, -, _, hsize, _, hout, -⟩ := h
  refine ⟨?_, hsize, checkOutputs_ok hout⟩
  rintro hnil
  rw [hnil] at hvin
  cases hvin

theorem isNull_of_nonneg {o : CTxOut} (h : 0 ≤ o.nValue) : o.isNull = false :=
  beq_eq_false_iff_ne.mpr fun hnull => absurd (hnull ▸ h) (by decide)

theorem length_vin_le (tx : CTransaction) : tx.vin.length ≤ tx.getSerializeSize := by
  have hsum : (tx.vin.map fun txin => 36 + vectorSize txin.scriptSig + 4).length ≤
      (tx.vin.map fun txin => 36 + vectorSize txin.scriptSig + 4).sum := by
    refine List.length_le_sum_of_one_le _ fun n hn => ?_
    obtain ⟨txin, -, rfl⟩ := List.mem_map.mp hn
    omega
  rw [List.length_map] at hsum
  unfold CTransaction.getSerializeSize
  omega

theorem length_vtx_le (block : CBlock) : block.vtx.length ≤ block.getSerializeSize := by
  have hsum : (block.vtx.map CTransaction.getSerializeSize).length ≤
      (block.vtx.map CTransaction.getSerializeSize).sum := by
    refine List.length_le_sum_of_one_le _ fun n hn => ?_
    obtain ⟨tx, -, rfl⟩ := List.mem_map.mp hn
    unfold CTransaction.getSerializeSize
    omega
  rw [List.length_map] at hsum
  unfold CBlock.getSerializeSize
  omega

/-- Every input has a value that there can be, and these are summed up. -/
theorem checkInputValues_ok {nSpendHeight : ℤ} {vin : List CTxIn} {nValueIn nValue : CAmount}
    (h : checkInputValues par nSpendHeight view vin nValueIn = .ok nValue) :
    (∀ txin ∈ vin, moneyRange par (view.getOutputFor txin).nValue = true) ∧
      nValue = nValueIn + (vin.map fun txin => (view.getOutputFor txin).nValue).sum := by
  induction vin generalizing nValueIn with
  | nil =>
    cases h
    exact ⟨nofun, (Int.add_zero _).symm⟩
  | cons txin vin ih =>
    simp only [checkInputValues, bind_ok, require_ok, present_ok, Bool.and_eq_true] at h
    obtain ⟨coins, hcoins, _, -, _, ⟨hrange, -⟩, hrest⟩ := h
    have hget : view.getOutputFor txin = coins.vout.getD txin.prevout.n.toNat CTxOut.null := by
      rw [CCoinsViewCache.getOutputFor, CCoinsViewCache.coinsFor, hcoins, Option.getD_some]
    obtain ⟨hothers, hsum⟩ := ih hrest
    constructor
    · intro txin' hin
      rcases List.mem_cons.mp hin with rfl | hin
      · rw [hget]
        exact hrange
      · exact hothers txin' hin
    · rw [hsum, List.map_cons, List.sum_cons, hget, Int.add_assoc]

theorem connectTransaction_values {nHeight : ℤ} {flags : ℕ} {fScriptChecks : Bool} {t t' : Tally}
    {tx : CTransaction} {undo : CTxUndo}
    (h : connectTransaction par orc env nHeight flags fScriptChecks t tx = .ok (t', undo)) :
    ∀ r ∈ undo.vprevout, moneyRange par r.txout.nValue = true := by
  have hupdate := (connectTransaction_ok h).1
  cases hcb : tx.isCoinBase with
  | true =>
    rw [CCoinsViewCache.updateCoins, if_pos hcb] at hupdate
    obtain ⟨-, rfl⟩ := Prod.mk.inj (Option.some.inj hupdate)
    exact nofun
  | false =>
    simp only [connectTransaction, tallyInputs, hcb, Bool.false_eq_true, if_false, bind_ok] at h
    obtain ⟨_, -, t₁, ⟨_, -, _, -, _, -, _, hinputs, -⟩, -⟩ := h
    simp only [checkInputs, hcb, Bool.false_eq_true, if_false, bind_ok] at hinputs
    obtain ⟨_, -, _, -, _, hvalues, -⟩ := hinputs
    obtain ⟨_, _, hspend, -, -, rfl⟩ := CCoinsViewCache.updateCoins_of_inputs hcb hupdate
    intro r hr
    obtain ⟨txin, hin, c, hc, hout, -⟩ := (CCoinsViewCache.mem_spendInputs hspend).2 r hr
    have hrange := (checkInputValues_ok hvalues).1 txin hin
    have hget : t.view.getOutputFor txin = r.txout := by
      rw [CCoinsViewCache.getOutputFor, (CCoinsViewCache.unspent_eq_some.mp hc).1,
        List.getD_eq_getElem?_getD, (Slots.held_eq_some.mp hout).1, Option.getD_some]
    rwa [hget] at hrange

theorem connectTransactions_values {nHeight : ℤ} {flags : ℕ} {fScriptChecks : Bool} {t t' : Tally}
    {vtx : List CTransaction} {undos : List CTxUndo}
    (h : connectTransactions par orc env nHeight flags fScriptChecks t vtx = .ok (t', undos)) :
    ∀ txundo ∈ undos, ∀ r ∈ txundo.vprevout, moneyRange par r.txout.nValue = true := by
  induction vtx generalizing t undos with
  | nil =>
    cases h
    exact nofun
  | cons tx vtx ih =>
    simp only [connectTransactions, bind_ok] at h
    obtain ⟨⟨t₁, undo⟩, hone, ⟨t₂, undos'⟩, hrest, h⟩ := h
    cases h
    intro txundo htxundo
    rcases List.mem_cons.mp htxundo with rfl | htxundo
    · exact connectTransaction_values hone
    · exact ih hrest txundo htxundo

end Checks

/-! Connected blocks. -/

/-- Two views that hold the same. -/
structure Same (W V : CCoinsViewCache) : Prop where
  hashBlock : W.hashBlock = V.hashBlock
  unspent : ∀ txid, W.unspent txid = V.unspent txid

/-- The block is taken back without complaint, and the view is as it was before. -/
def Undone (block : CBlock) (blockUndo : Option CBlockUndo) (pindex : CBlockIndex)
    (W V : CCoinsViewCache) : Prop :=
  ∃ X, disconnectBlock block blockUndo pindex W = .ok (X, true) ∧ Same X V

section Connected

variable {par : Params} {orc : Oracles} {env : Env} {disk : Disk} {block : CBlock}
  {pindex pprev : CBlockIndex} {view : CCoinsViewCache} {c : Connected} {t : Tally}
  {undos : List CTxUndo}

theorem newTxs_of_accepted (h : Accepted par orc env block pindex view false c t undos)
    (hexempt : bip30Exempt pindex = false)
    (hdistinct : ∀ tx ∈ block.vtx, ∀ tx' ∈ block.vtx, tx'.hash = tx.hash → tx' = tx) :
    NewTxs view block.vtx := by
  have hchecked := checkBlock_ok h.checked
  refine ⟨fun tx htx => ?_, hdistinct, fun tx htx => ?_, fun tx htx => ?_⟩
  · have hover := h.bip30.resolve_left (by rw [hexempt]; exact Bool.false_ne_true)
    have hone := List.all_eq_true.mp hover tx htx
    rw [CTransaction.getHash] at hone
    rw [CCoinsViewCache.unspent]
    cases hcoins : view.accessCoins tx.hash with
    | none => rfl
    | some coins =>
      rw [hcoins] at hone
      exact Option.filter_eq_none_iff.mpr fun a ha => by
        rw [← Option.some.inj ha, show coins.isPruned = true from hone]
        exact Bool.false_ne_true
  · exact fun o ho =>
      isNull_of_nonneg ((checkTransaction_ok (hchecked.transactions tx htx)).2.2 o ho).1
  · obtain ⟨cb, rest, hvtx, -, hrest⟩ := hchecked.coinbase
    have htx' : tx ∈ block.vtx := List.mem_of_mem_tail htx
    rw [hvtx] at htx
    exact ⟨hrest tx htx, (checkTransaction_ok (hchecked.transactions tx htx')).1⟩

theorem accepted_run (h : Accepted par orc env block pindex view false c t undos)
    (hexempt : bip30Exempt pindex = false) (hview : ReceivedCoins view)
    (hblock : ReceivedTxs block.vtx) :
    ∃ cb rest undos', block.vtx = cb :: rest ∧
      Progress view pindex.height [cb] (view.addOutputs cb pindex.height) ∧
      (view.addOutputs cb pindex.height).updateAll pindex.height rest = some (t.view, undos') ∧
      c.blockundo = ⟨undos'⟩ := by
  have hnew := newTxs_of_accepted h hexempt hblock.distinct
  obtain ⟨cb, rest, hvtx, hcb, -⟩ := (checkBlock_ok h.checked).coinbase
  have hrun := connectTransactions_updateAll h.connected
  rw [hvtx] at hrun
  obtain ⟨view₁, undo, undos', hone, hrest, rfl⟩ := updateAll_cons hrun
  have hp := (@NewTxs.step _ _ _ _ _ _ [] _ hnew hvtx (progress_nil hview.tidy) _ hone).2.2
  rw [updateCoins, if_pos hcb] at hone
  obtain ⟨rfl, rfl⟩ := Prod.mk.inj (Option.some.inj hone)
  exact ⟨cb, rest, undos', hvtx, hp, hrest, h.blockundo⟩

/-- Nothing is lost when the undo data keeps all that is needed. -/
theorem undone_of_recoverable (h : Accepted par orc env block pindex view false c t undos)
    (hprev : pindex.parent? = some pprev) (hexempt : bip30Exempt pindex = false)
    (hview : ReceivedCoins view) (hblock : ReceivedTxs block.vtx)
    (hkept : Recoverable view pindex.height block.vtx) :
    Undone block (some c.blockundo) pindex c.view view := by
  have hnew := newTxs_of_accepted h hexempt hblock.distinct
  have hversion : ∀ tx ∈ block.vtx, 0 ≤ tx.nVersion := fun tx htx => (hblock.nVersion tx htx).1
  obtain ⟨cb, rest, undos', hvtx, hp, hrun, hundo⟩ := accepted_run h hexempt hview hblock
  have hcview : c.view = t.view.setBestBlock pindex.getBlockHash := h.result
  have hcb : cb ∈ block.vtx := by simp [hvtx]
  obtain ⟨X, hX, hsame⟩ := disconnectTransactions_updateAll (W := c.view) hnew hkept hversion
    hvtx (by simp) hp hrun fun txid => by rw [hcview, unspent_setBestBlock]
  obtain ⟨hcleared, hback⟩ := clearOutputs_spec (hnew.fresh cb hcb) (hversion cb hcb)
    (CCoins.tidy_fromTx (hnew.canonical hcb) pindex.height) hsame
  refine ⟨_, (disconnectBlock_clean hprev).mpr ⟨by rw [hcview]; rfl, c.blockundo, cb, rest, X,
    rfl, hvtx, by rw [hundo]; exact length_updateAll hrun, by rw [hundo]; exact hX, hcleared,
    rfl⟩, ⟨?_, hback⟩⟩
  have hhash := h.hashPrevBlock
  rw [hprev] at hhash
  exact hhash

/-- What was used up and is there again comes from the records. -/
theorem fromRecord_of_undone (h : Accepted par orc env block pindex view false c t undos)
    (hprev : pindex.parent? = some pprev) (hexempt : bip30Exempt pindex = false)
    (hview : ReceivedCoins view) (hblock : ReceivedTxs block.vtx) {undo : CBlockUndo}
    (hundone : Undone block (some undo) pindex c.view view) {txid : Uint256} {e : CCoins}
    (huses : UsesUp view pindex.height block.vtx txid e) :
    FromRecord (fun r => ∃ txundo ∈ undo.vtxundo, r ∈ txundo.vprevout) e := by
  have hnew := newTxs_of_accepted h hexempt hblock.distinct
  have hversion : ∀ tx ∈ block.vtx, 0 ≤ tx.nVersion := fun tx htx => (hblock.nVersion tx htx).1
  obtain ⟨cb, rest, undos', hvtx, hp, hrun, -⟩ := accepted_run h hexempt hview hblock
  have hcview : c.view = t.view.setBestBlock pindex.getBlockHash := h.result
  obtain ⟨X, hX, hsame⟩ := hundone
  obtain ⟨-, undo', cb', rest', view', heq, hvtx', hlen, hrest, hcleared, rfl⟩ :=
    (disconnectBlock_clean hprev).mp hX
  obtain rfl := Option.some.inj heq
  obtain ⟨rfl, rfl⟩ := List.cons.inj (hvtx.symm.trans hvtx')
  obtain ⟨hbuilt, hothers⟩ := disconnectTransactions_rebuilt
    (R := fun r => ∃ txundo ∈ undo.vtxundo, r ∈ txundo.vprevout)
    (fun p hp r hr => ⟨p.2, (List.of_mem_zip hp).2, hr⟩)
    (fun p hp => hversion p.1 (by rw [hvtx]; exact List.mem_cons_of_mem _ (List.of_mem_zip hp).1))
    hrest
  have hgone : c.view.unspent txid = none := by
    rw [hcview, unspent_setBestBlock]
    exact unspent_eq_none_of_usesUp (hnew.progress hvtx hp hrun) huses
  have horigin := huses.origin
  rw [origin] at horigin
  cases hfind : block.vtx.find? (fun tx => tx.hash = txid) with
  | none =>
    rw [hfind] at horigin
    refine hbuilt.clearOutputs cb pindex.height txid e hgone ?_
    rw [← horigin]
    exact hsame.unspent txid
  | some tx =>
    rw [hfind] at horigin
    obtain rfl := Option.some.inj horigin
    have htxid : tx.hash = txid := by simpa using List.find?_some hfind
    subst htxid
    have hmem := List.mem_of_find?_eq_some hfind
    rw [hvtx] at hmem
    rcases List.mem_cons.mp hmem with rfl | hmem
    · exact hbuilt.fromTx (hversion tx (by simp [hvtx])) hcleared hgone huses.unspent
    · obtain ⟨i, hi, rfl⟩ := List.mem_iff_getElem.mp hmem
      have hi' : i < undo.vtxundo.length := hlen ▸ hi
      have hzip : (rest[i], undo.vtxundo[i]) ∈ rest.zip undo.vtxundo := by
        refine List.mem_iff_getElem.mpr ⟨i, by rw [List.length_zip, hlen]; omega, ?_⟩
        exact List.getElem_zip
      exact hothers _ hzip hgone huses.unspent

theorem mem_of_output_fromTx {tx : CTransaction} {nHeight : ℤ} {n : ℕ} {o : CTxOut}
    (h : (CCoins.fromTx tx nHeight).output n = some o) : o ∈ tx.vout := by
  obtain ⟨hget, hnull⟩ := Slots.held_eq_some.mp h
  obtain ⟨o', ho', rfl⟩ := List.mem_map.mp
    ((List.rdropWhile_prefix CTxOut.isNull _).subset (List.mem_of_getElem? hget))
  by_cases hu : Script.isUnspendable o'.scriptPubKey = true
  · rw [if_pos hu] at hnull
    cases hnull
  · rw [if_neg hu]
    exact ho'

theorem length_vprevout {nHeight : ℤ} {vtx : List CTransaction} {view₂ : CCoinsViewCache}
    (h : view.updateAll nHeight vtx = some (view₂, undos)) :
    ∀ txundo ∈ undos, ∃ tx ∈ vtx, txundo.vprevout.length ≤ tx.vin.length := by
  induction vtx generalizing view undos with
  | nil =>
    cases h
    exact nofun
  | cons tx vtx ih =>
    obtain ⟨view₁, undo, undos', hone, hrest, rfl⟩ := updateAll_cons h
    intro txundo htxundo
    rcases List.mem_cons.mp htxundo with rfl | htxundo
    · refine ⟨tx, List.mem_cons_self, ?_⟩
      cases hcb : tx.isCoinBase with
      | true =>
        rw [updateCoins, if_pos hcb] at hone
        obtain ⟨-, rfl⟩ := Prod.mk.inj (Option.some.inj hone)
        exact Nat.zero_le _
      | false =>
        obtain ⟨_, _, hspend, -, -, rfl⟩ := updateCoins_of_inputs hcb hone
        exact Nat.le_of_eq (mem_spendInputs hspend).1
    · obtain ⟨tx', htx', hle⟩ := ih hrest txundo htxundo
      exact ⟨tx', List.mem_cons_of_mem _ htx', hle⟩

/-- The undo data can be stored when the heights of what was used up can be. -/
theorem writableBlock_of_accepted (h : Accepted par orc env block pindex view false c t undos)
    (hexempt : bip30Exempt pindex = false) (hmoney : par.nMaxMoneyOut < 2 ^ 60)
    (hview : ReceivedCoins view) (hblock : ReceivedTxs block.vtx)
    (hheight : ∀ txid e, UsesUp view pindex.height block.vtx txid e →
      1 ≤ e.nHeight ∧ e.nHeight < 2 ^ 30) : Undo.WritableBlock c.blockundo := by
  have hnew := newTxs_of_accepted h hexempt hblock.distinct
  have hchecked := checkBlock_ok h.checked
  obtain ⟨cb, rest, undos', hvtx, hp, hrun, hundo⟩ := accepted_run h hexempt hview hblock
  have hvalues : ∀ txundo ∈ undos', ∀ r ∈ txundo.vprevout,
      moneyRange par r.txout.nValue = true := by
    have heq : undos' = undos.tail := (CBlockUndo.mk.inj (hundo.symm.trans h.blockundo))
    intro txundo htxundo
    rw [heq] at htxundo
    exact connectTransactions_values h.connected txundo (List.mem_of_mem_tail htxundo)
  have hmax : maxBlockSize ≤ Undo.maxSize := by decide
  rw [hundo]
  refine ⟨?_, fun txundo htxundo => ?_, fun txundo htxundo r hr => ?_⟩
  · have hlen : undos'.length + 1 = block.vtx.length := by
      rw [hvtx, List.length_cons, length_updateAll hrun]
    have hvtxlen := length_vtx_le block
    have hsize := hchecked.size
    simp only
    omega
  · obtain ⟨tx, htx, hle⟩ := length_vprevout hrun txundo htxundo
    have htx' : tx ∈ block.vtx := by rw [hvtx]; exact List.mem_cons_of_mem _ htx
    have hsize := (checkTransaction_ok (hchecked.transactions tx htx')).2.1
    have hvin := length_vin_le tx
    omega
  · obtain ⟨txid, e, n, horigin, hout, hkind⟩ :=
      hnew.record hvtx (by simp) hp hrun txundo htxundo r hr
    have hcoins : Received r.txout ∧ -2 ^ 31 ≤ e.nVersion ∧ e.nVersion < 2 ^ 31 := by
      rw [origin] at horigin
      split at horigin
      · next tx hfind =>
        obtain rfl := Option.some.inj horigin
        have hmem := List.mem_of_find?_eq_some hfind
        have hversion := hblock.nVersion tx hmem
        have hsame : (CCoins.fromTx tx pindex.height).nVersion = tx.nVersion := rfl
        exact ⟨hblock.outputs tx hmem _ (mem_of_output_fromTx hout), by omega, by omega⟩
      · exact ⟨hview.outputs txid n _ (by rw [output_eq, horigin]; exact hout),
          hview.nVersion txid e horigin⟩
    have hrange := hvalues txundo htxundo r hr
    simp only [moneyRange, Bool.and_eq_true, decide_eq_true_eq] at hrange
    have hstorable : Undo.Storable r.txout :=
      ⟨hrange.1, Int.lt_of_le_of_lt hrange.2 hmoney, hcoins.1.script, hcoins.1.nRounds⟩
    rcases hkind with heq | ⟨huses, heq⟩
    · refine ⟨hstorable, ?_, ?_, ?_⟩ <;> rw [heq] <;> simp
    · have hrange := hheight txid e huses
      have hself : (toUInt32 e.nHeight : ℤ) = e.nHeight := by
        rw [toUInt32]
        omega
      refine ⟨hstorable, ?_, ?_, ?_⟩
      · rw [heq]
        simp only
        omega
      · rw [heq]
        exact hcoins.2
      · rw [heq]
        simp only
        omega

/-- A block is taken back as it was connected, also with undo data from the disk, if and only if the
undo data keeps all that is known of the transactions that the block uses up. -/
theorem disconnect_undoes_connect_iff {fmt : Undo.Codec}
    (hconn : connectBlock par orc env disk block pindex view false = .ok c)
    (hgenesis : block.getHash ≠ par.hashGenesisBlock) (hprev : pindex.parent? = some pprev)
    (hexempt : bip30Exempt pindex = false) (hmoney : par.nMaxMoneyOut < 2 ^ 60)
    (hview : ReceivedCoins view) (hblock : ReceivedTxs block.vtx)
    (hkeys : fmt.toKeys.Lawful) :
    (Undone block (some c.blockundo) pindex c.view view ∧
      Undone block (Undo.readFromDisk fmt (CBlockIndex.getBlockHash pprev)
        (Undo.writeToDisk fmt (CBlockIndex.getBlockHash pprev) c.blockundo)) pindex c.view view) ↔
      Recoverable view pindex.height block.vtx := by
  obtain ⟨t, undos, h⟩ := connectBlock_ok hgenesis hconn
  have hread := fun hheight => Undo.readFromDisk_writeToDisk hkeys (CBlockIndex.getBlockHash pprev)
    (writableBlock_of_accepted h hexempt hmoney hview hblock hheight)
  constructor
  · rintro ⟨-, hundone⟩ txid e huses
    obtain ⟨X, hX, -⟩ := id hundone
    obtain ⟨-, undo, -, -, -, hundo, -⟩ := (disconnectBlock_clean hprev).mp hX
    rw [hundo] at hundone
    have hrecord := fun txid e (huses : UsesUp view pindex.height block.vtx txid e) =>
      fromRecord_of_undone h hprev hexempt hview hblock hundone huses
    have hheight : ∀ txid e, UsesUp view pindex.height block.vtx txid e →
        1 ≤ e.nHeight ∧ e.nHeight < 2 ^ 30 := by
      intro txid e huses
      obtain ⟨-, r, ⟨txundo, htxundo, hr⟩, hne, heq, -⟩ := hrecord txid e huses
      have hlt := Undo.nHeight_lt_of_readFromDisk hundo txundo htxundo r hr
      rw [heq, toInt32_eq_self (by omega) (by omega)]
      omega
    obtain ⟨hstake, r, ⟨txundo, htxundo, hr⟩, -, -, hversion⟩ := hrecord txid e huses
    obtain rfl := Option.some.inj (hundo.symm.trans (hread hheight))
    obtain ⟨txundo', -, rfl⟩ := List.mem_map.mp htxundo
    obtain ⟨r', -, rfl⟩ := List.mem_map.mp hr
    refine ⟨hstake, (hheight txid e huses).1, (hheight txid e huses).2, ?_⟩
    rw [hversion]
    exact Undo.storedVersion_nonneg _
  · intro hkept
    have hundone := undone_of_recoverable h hprev hexempt hview hblock hkept
    have hself : Undo.storedBlock c.blockundo = c.blockundo := by
      obtain ⟨cb, rest, undos', hvtx, hp, hrun, hundo⟩ := accepted_run h hexempt hview hblock
      have hone : ∀ txundo ∈ undos', Undo.storedTx txundo = txundo := by
        intro txundo htxundo
        have hrecords : ∀ r ∈ txundo.vprevout, Undo.stored r = r := by
          intro r hr
          obtain ⟨txid, e, n, -, -, hkind⟩ :=
            (newTxs_of_accepted h hexempt hblock.distinct).record hvtx (by simp) hp hrun txundo
              htxundo r hr
          have hversion : 0 ≤ r.nVersion := by
            rcases hkind with heq | ⟨huses, heq⟩
            · rw [heq]
            · rw [heq]
              exact (hkept txid e huses).nVersion
          rw [Undo.stored, Undo.storedVersion_eq_self hversion]
        rw [Undo.storedTx, List.map_congr_left hrecords, List.map_id']
      rw [hundo, Undo.storedBlock, List.map_congr_left hone, List.map_id']
    refine ⟨hundone, ?_⟩
    rw [hread fun txid e huses => ⟨(hkept txid e huses).pos, (hkept txid e huses).lt⟩, hself]
    exact hundone

end Connected

/-! A coinstake that spends all of an earlier coinstake, its empty first output included. -/

def stakeEnv : Env := plainEnv (plainChain 800) .empty .empty

def stakeView : CCoinsViewCache where
  hashBlock := 1800
  cacheCoins := Dict.empty.set 77
    ⟨false, true, [⟨0, [], -10⟩, ⟨1000 * coin, [0x51], -10⟩], 780, 1⟩

def stakeBlock : CBlock :=
  plainBlock 1801 1800 [coinbaseOf 500 [⟨0, [], -10⟩],
    ⟨501, 1, [⟨⟨77, 1⟩, [], BitVec.allOnes 32⟩, ⟨⟨77, 0⟩, [0x51], BitVec.allOnes 32⟩],
      [⟨0, [], -10⟩, ⟨1000 * coin, [0x51], -10⟩], 0⟩]

/-- The stake is to be spent again eleven blocks before it was. -/
def earlySpend : List CTxIn := [⟨⟨77, 1⟩, [], BitVec.allOnes 32⟩]

set_option maxRecDepth 8000 in
theorem stakeBlock_connects : ∃ c, connectBlock mainParams plainOracles stakeEnv {} stakeBlock
    (plainChain 801) stakeView false = .ok c := by
  have hrun : (connectBlock mainParams plainOracles stakeEnv {} stakeBlock (plainChain 801)
      stakeView false).toOption.isSome = true := by
    decide
  generalize connectBlock mainParams plainOracles stakeEnv {} stakeBlock (plainChain 801) stakeView
    false = r at hrun
  cases r with
  | error e => cases hrun
  | ok c => exact ⟨c, rfl⟩

theorem stakeView_unspent {txid : Uint256} {c : CCoins} (h : stakeView.unspent txid = some c) :
    txid = 77 ∧ c = ⟨false, true, [⟨0, [], -10⟩, ⟨1000 * coin, [0x51], -10⟩], 780, 1⟩ := by
  have hcoins := (unspent_eq_some.mp h).1
  simp only [CCoinsViewCache.coinsFor, CCoinsViewCache.accessCoins, stakeView,
    Dict.find_set] at hcoins
  split at hcoins
  · next htxid => exact ⟨htxid, hcoins.symm⟩
  · rw [unspent_eq_some] at h
    rw [← hcoins] at h
    cases h.2

set_option maxRecDepth 8000 in
theorem spent_coinstake_forgotten :
    ∃ c X, connectBlock mainParams plainOracles stakeEnv {} stakeBlock (plainChain 801) stakeView
        false = .ok c ∧
      disconnectBlock stakeBlock (some c.blockundo) (plainChain 801) c.view = .ok (X, true) ∧
      (stakeView.unspent 77).map CCoins.fCoinStake = some true ∧
      (X.unspent 77).map CCoins.fCoinStake = some false ∧
      checkInputValues mainParams 790 stakeView earlySpend 0 =
        .error (invalid "bad-txns-premature-spend-of-coinbase") ∧
      checkInputValues mainParams 790 X earlySpend 0 = .ok (1000 * coin) ∧
      ¬Undone stakeBlock (some c.blockundo) (plainChain 801) c.view stakeView := by
  obtain ⟨c, hc⟩ := stakeBlock_connects
  have hrun : (connectBlock mainParams plainOracles stakeEnv {} stakeBlock (plainChain 801)
      stakeView false).toOption.bind (fun c =>
        (disconnectBlock stakeBlock (some c.blockundo) (plainChain 801) c.view).toOption.map
          fun r => (r.2, (r.1.unspent 77).map CCoins.fCoinStake,
            (checkInputValues mainParams 790 r.1 earlySpend 0).toOption)) =
      some (true, some false, some (1000 * coin)) := by
    decide
  rw [hc] at hrun
  cases hX : disconnectBlock stakeBlock (some c.blockundo) (plainChain 801) c.view with
  | error e =>
    simp only [Except.toOption, Option.bind_some, hX] at hrun
    cases hrun
  | ok r =>
    obtain ⟨X, clean⟩ := r
    simp only [Except.toOption, Option.bind_some, hX] at hrun
    obtain ⟨rfl, hrest⟩ := Prod.mk.inj (Option.some.inj hrun)
    obtain ⟨hforgotten, hspends⟩ := Prod.mk.inj hrest
    have hstake : (stakeView.unspent 77).map CCoins.fCoinStake = some true := by decide
    have hvalue : checkInputValues mainParams 790 X earlySpend 0 = .ok (1000 * coin) := by
      cases hcheck : checkInputValues mainParams 790 X earlySpend 0 with
      | error e =>
        rw [hcheck] at hspends
        cases hspends
      | ok v =>
        rw [hcheck] at hspends
        rw [Option.some.inj hspends]
    refine ⟨c, X, hc, hX, hstake, hforgotten, by rfl, hvalue, ?_⟩
    rintro ⟨X', hX', hsame⟩
    obtain ⟨rfl, -⟩ := Prod.mk.inj (Except.ok.inj (hX.symm.trans hX'))
    rw [hsame.unspent, hstake] at hforgotten
    cases hforgotten

/-- Keys of which none is valid, and a checksum that is always the same. -/
def bareCodec : Undo.Codec where
  isFullyValid _ := false
  decompress _ := none
  Hash _ := 0

set_option maxRecDepth 8000 in
theorem disconnect_undoes_connect_sample :
    ∃ c, connectBlock mainParams plainOracles stakeEnv {} stakeBlock (plainChain 801) stakeView
        false = .ok c ∧
      ¬(Undone stakeBlock (some c.blockundo) (plainChain 801) c.view stakeView ∧
        Undone stakeBlock (Undo.readFromDisk bareCodec 1800
          (Undo.writeToDisk bareCodec 1800 c.blockundo)) (plainChain 801) c.view stakeView) := by
  obtain ⟨c, hc⟩ := stakeBlock_connects
  have hview : ReceivedCoins stakeView := by
    refine ⟨fun txid c h => ?_, fun txid c h => ?_, fun txid n o h => ?_⟩
    · obtain ⟨-, rfl⟩ := stakeView_unspent h
      exact ⟨by decide, by decide⟩
    · obtain ⟨-, rfl⟩ := stakeView_unspent h
      decide
    · rw [output_eq] at h
      obtain ⟨c, hcoins, hout⟩ := Option.bind_eq_some_iff.mp h
      obtain ⟨-, rfl⟩ := stakeView_unspent hcoins
      have hmem := List.mem_of_getElem? (Slots.held_eq_some.mp hout).1
      simp only [List.mem_cons, List.not_mem_nil, or_false] at hmem
      rcases hmem with rfl | rfl
      · exact ⟨by decide, rfl⟩
      · exact ⟨by decide, rfl⟩
  have hblock : ReceivedTxs stakeBlock.vtx := by
    refine ⟨by decide, fun tx htx o ho => ?_, by decide⟩
    have hall : ∀ tx ∈ stakeBlock.vtx, ∀ o ∈ tx.vout,
        o.scriptPubKey.length + Compressor.nSpecialScripts < 2 ^ 32 ∧ o.nRounds = -10 := by decide
    exact ⟨(hall tx htx o ho).1, (hall tx htx o ho).2⟩
  have hiff := @disconnect_undoes_connect_iff _ _ _ _ _ _ _ _ _ bareCodec hc (by decide)
    (show (plainChain 801).parent? = some (plainChain 800) from rfl) (by decide)
    (by decide) hview hblock fun _ _ _ hvalid => nomatch hvalid
  refine ⟨c, hc, fun hundone => ?_⟩
  have huses : UsesUp stakeView (plainChain 801).height stakeBlock.vtx 77
      ⟨false, true, [⟨0, [], -10⟩, ⟨1000 * coin, [0x51], -10⟩], 780, 1⟩ := by
    refine ⟨by decide, rfl, fun n hn => ?_⟩
    match n with
    | 0 => exact ⟨⟨77, 0⟩, by decide, rfl, rfl⟩
    | 1 => exact ⟨⟨77, 1⟩, by decide, rfl, rfl⟩
    | n + 2 => exact absurd rfl hn
  exact absurd (hiff.mp hundone 77 _ huses).fCoinStake (by decide)

end Validation

end Scrypta
