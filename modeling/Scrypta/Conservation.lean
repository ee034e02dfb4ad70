import Scrypta.RelayChain
import Scrypta.SoundViews
import Scrypta.Toolkit.Runs

/-! Coins are conserved. Blocks are connected and disconnected at the tip, and the money supply of
the tip is what the view of the coins is worth, with the outputs that no one can spend. The sums of
`ConnectBlock` over all transactions of a block are not checked one by one. -/

namespace Scrypta.Supply

open CCoinsViewCache Validation Runs

/-- What a node keeps of its chain: the view at the tip, and by block the sums of the block and its
undo data, as they are on the disk. -/
structure Node where
  pcoinsTip : CCoinsViewCache
  tip : CBlockIndex
  nMoneySupply : CBlockIndex → CAmount
  nMint : CBlockIndex → CAmount
  undo : CBlockIndex → Option Bytes

/-- A call of `ConnectTip` or `DisconnectTip`. A call of `ConnectBlock` that refuses may have left
its sums in the index of the block. -/
inductive Event
  | connectTip (orc : Oracles) (env : Env) (disk : Disk) (pindexNew : CBlockIndex)
      (left : Option CAmount)
  | disconnectTip

section Machine

variable (par : Params) (fmt : Undo.Codec) (blockOf : CBlockIndex → CBlock)

/-- The money supply and the mint of a block are written to its index. -/
def Node.setSupply (s : Node) (pindex : CBlockIndex) (nMoneySupply : CAmount) : Node :=
  { s with
    nMoneySupply := Function.update s.nMoneySupply pindex nMoneySupply
    nMint := Function.update s.nMint pindex
      (nMoneySupply - (pindex.parent?.map s.nMoneySupply).getD 0) }

/-- What a check reads of this node. -/
def Node.env (s : Node) (env : Env) : Env :=
  { env with chainActive := CChain.ofTip s.tip, nMoneySupply := s.nMoneySupply }

/-- Undo data is written once. -/
def Node.writeUndo (s : Node) (pindex pprev : CBlockIndex) (blockundo : CBlockUndo) :
    CBlockIndex → Option Bytes :=
  if s.undo pindex = none then
    Function.update s.undo pindex
      (some (Undo.writeToDisk fmt (CBlockIndex.getBlockHash pprev) blockundo))
  else s.undo

/-- The block is the new tip. -/
def Node.connected (s : Node) (pindexNew : CBlockIndex) (c : Connected) : Node :=
  { s.setSupply pindexNew (s.nMoneySupply s.tip + c.nMint) with
    pcoinsTip := c.view
    tip := pindexNew
    undo := s.writeUndo fmt pindexNew s.tip c.blockundo }

def connectTip (s : Node) (orc : Oracles) (env : Env) (disk : Disk) (pindexNew : CBlockIndex)
    (left : Option CAmount) : Node :=
  if pindexNew.parent? = some s.tip then
    match connectBlock par orc (s.env env) disk (blockOf pindexNew) pindexNew s.pcoinsTip false with
    | .ok c => s.connected fmt pindexNew c
    | .error _ =>
      match left with
      | some nMoneySupply => s.setSupply pindexNew nMoneySupply
      | none => s
  else s

/-- The undo data of a block, if it is there and can be read. -/
def Node.readUndo (s : Node) (pindex pprev : CBlockIndex) : Option CBlockUndo :=
  (s.undo pindex).bind (Undo.readFromDisk fmt (CBlockIndex.getBlockHash pprev))

/-- The tip stays when something does not fit. -/
def disconnectTip (s : Node) : Node :=
  match s.tip.parent? with
  | none => s
  | some pprev =>
    match disconnectBlock (blockOf s.tip) (s.readUndo fmt s.tip pprev) s.tip s.pcoinsTip with
    | .ok (view, true) => { s with pcoinsTip := view, tip := pprev }
    | _ => s

def step (s : Node) : Event → Node
  | .connectTip orc env disk pindexNew left =>
    connectTip par fmt blockOf s orc env disk pindexNew left
  | .disconnectTip => disconnectTip fmt blockOf s

end Machine

/-- A node that knows the genesis block only, whose outputs are not in the view. -/
def start (genesis : BlockInfo) : Node where
  pcoinsTip := ⟨genesis.hash, Dict.empty⟩
  tip := .root genesis
  nMoneySupply _ := 0
  nMint _ := 0
  undo _ := none

/-- The outputs on the active chain that no one can spend. -/
def activeUnspendable (blockOf : CBlockIndex → CBlock) : CBlockIndex → CAmount
  | .root _ => 0
  | .child p a => activeUnspendable blockOf p + unspendableValue (blockOf (.child p a)).vtx

/-- The money supply of the tip is what there is, and every block has created the difference. -/
structure Conserved (blockOf : CBlockIndex → CBlock) (s : Node) : Prop where
  supply : s.nMoneySupply s.tip = s.pcoinsTip.total + activeUnspendable blockOf s.tip
  nMint : ∀ p ∈ s.tip.line, ∀ q, p.parent? = some q →
    s.nMint p = s.nMoneySupply p - s.nMoneySupply q

/-! The sums of `ConnectBlock`. -/

section Sums

/-- The sums of `GetValueIn`. -/
def inputSums (view : CCoinsViewCache) (tx : CTransaction) : List CAmount :=
  ((inputsOf tx).map fun txin => (view.getOutputFor txin).nValue).scanl (fun a b => a + b) 0

/-- The values that the sums of the loop take, after the transactions so far. -/
def loopSums (nHeight : ℤ) :
    CCoinsViewCache → List CTransaction → CAmount → CAmount → CAmount → List CAmount
  | _, [], _, _, _ => []
  | view, tx :: vtx, nFees, nValueIn, nValueOut =>
    inputSums view tx ++
      [transactionFee view tx, nFees + transactionFee view tx, nValueIn + view.getValueIn tx,
        nValueOut + valueOut tx] ++
      loopSums nHeight (afterTransaction view nHeight tx) vtx (nFees + transactionFee view tx)
        (nValueIn + view.getValueIn tx) (nValueOut + valueOut tx)

/-- All sums for a block on the tip: those of the loop, then `nMoneySupplyPrev + nValueOut`, the
money supply and the mint. -/
def blockSums (blockOf : CBlockIndex → CBlock) (s : Node) (pindex : CBlockIndex) : List CAmount :=
  loopSums pindex.height s.pcoinsTip (blockOf pindex).vtx 0 0 0 ++
    [s.nMoneySupply s.tip + createdValue (blockOf pindex).vtx,
      s.nMoneySupply s.tip + blockMint pindex.height s.pcoinsTip (blockOf pindex).vtx,
      blockMint pindex.height s.pcoinsTip (blockOf pindex).vtx]

def InInt64 (x : CAmount) : Prop := -2 ^ 63 ≤ x ∧ x < 2 ^ 63

/-- No sum leaves the 64-bit range when the block is connected. -/
def SumsFit (par : Params) (blockOf : CBlockIndex → CBlock) (s : Node) : Event → Prop
  | .connectTip orc env disk pindexNew _ =>
    pindexNew.parent? = some s.tip → ∀ c, connectBlock par orc (s.env env) disk
      (blockOf pindexNew) pindexNew s.pcoinsTip false = .ok c →
      ∀ x ∈ blockSums blockOf s pindexNew, InInt64 x
  | .disconnectTip => True

/-- The money supply with all outputs of the block stays below the limit. -/
def Bounded (blockOf : CBlockIndex → CBlock) (s : Node) : Event → Prop
  | .connectTip _ _ _ pindexNew _ => pindexNew.height < 2 ^ 30 ∧
    s.nMoneySupply s.tip + createdValue (blockOf pindexNew).vtx < 2 ^ 63
  | .disconnectTip => True

end Sums

section SumBounds

variable {blockOf : CBlockIndex → CBlock} {view view' mid : CCoinsViewCache} {nHeight : ℤ}
  {tx : CTransaction} {vtx : List CTransaction} {undos : List CTxUndo} {p : CBlockIndex}

theorem valueOut_nonneg (h : ∀ o ∈ tx.vout, Undo.Storable o) : 0 ≤ valueOut tx :=
  List.sum_nonneg fun x hx => by
    obtain ⟨o, ho, rfl⟩ := List.mem_map.mp hx
    exact (h o ho).nonneg

theorem unspendable_nonneg (h : ∀ o ∈ tx.vout, Undo.Storable o) : 0 ≤ tx.unspendable :=
  List.sum_nonneg fun x hx => by
    obtain ⟨o, ho, rfl⟩ := List.mem_map.mp hx
    exact (h o (List.mem_of_mem_filter ho)).nonneg

theorem createdValue_nonneg (h : ∀ tx ∈ vtx, ∀ o ∈ tx.vout, Undo.Storable o) :
    0 ≤ createdValue vtx :=
  List.sum_nonneg fun x hx => by
    obtain ⟨tx, htx, rfl⟩ := List.mem_map.mp hx
    exact valueOut_nonneg (h tx htx)

theorem unspendableValue_nonneg (h : ∀ tx ∈ vtx, ∀ o ∈ tx.vout, Undo.Storable o) :
    0 ≤ unspendableValue vtx :=
  List.sum_nonneg fun x hx => by
    obtain ⟨tx, htx, rfl⟩ := List.mem_map.mp hx
    exact unspendable_nonneg (h tx htx)

theorem Sound.total_nonneg (h : Sound blockOf view) : 0 ≤ view.total := by
  refine Dict.sum_nonneg fun txid c hc => ?_
  have hcoins : view.coinsFor txid = c := by
    rw [CCoinsViewCache.coinsFor, accessCoins, hc, Option.getD_some]
  cases hpruned : c.isPruned with
  | true => rw [CCoins.total_of_isPruned hpruned]
  | false =>
    refine Slots.total_nonneg fun n o ho => ?_
    obtain ⟨_, _, _, _, _, _, hstorable⟩ :=
      (h txid c (unspent_eq_some.mpr ⟨hcoins, hpruned⟩)).outputs n o ho
    exact hstorable.nonneg

theorem FitsTx.nonneg {undo : CTxUndo} (h : FitsTx blockOf tx undo) :
    ∀ r ∈ undo.vprevout, 0 ≤ r.txout.nValue := by
  unfold FitsTx at h
  generalize inputsOf tx = vin at h
  generalize undo.vprevout = rs at h
  induction h with
  | nil => exact nofun
  | cons hfit _ ih =>
    intro r hr
    rcases List.mem_cons.mp hr with rfl | hr
    · exact hfit.2.txout.nonneg
    · exact ih r hr

theorem recorded_nonneg {rs : List CTxInUndo} (h : ∀ r ∈ rs, 0 ≤ r.txout.nValue) :
    0 ≤ recorded rs :=
  List.sum_nonneg fun x hx => by
    obtain ⟨r, hr, rfl⟩ := List.mem_map.mp hx
    exact h r hr

/-- Sums of values that are not negative grow up to the whole. -/
theorem mem_scanl {l : List CAmount} (h : ∀ x ∈ l, 0 ≤ x) (a : CAmount) :
    ∀ x ∈ l.scanl (fun a b => a + b) a, a ≤ x ∧ x ≤ a + l.sum := by
  induction l generalizing a with
  | nil =>
    intro x hx
    rw [List.scanl_nil, List.mem_singleton] at hx
    simp [hx]
  | cons y l ih =>
    have hrest := fun x hx => h x (List.mem_cons_of_mem y hx)
    have hy := h y List.mem_cons_self
    have hsum : 0 ≤ l.sum := List.sum_nonneg hrest
    intro x hx
    rw [List.scanl_cons, List.mem_cons] at hx
    rw [List.sum_cons]
    rcases hx with rfl | hx
    · exact ⟨le_refl _, by linarith⟩
    · obtain ⟨hlo, hhi⟩ := ih hrest (a + y) x hx
      exact ⟨by linarith, by linarith⟩

theorem mem_inputSums {undo : CTxUndo}
    (hspent : view.spendInputs (inputsOf tx) = some (mid, undo.vprevout))
    (hfits : FitsTx blockOf tx undo) :
    ∀ x ∈ inputSums view tx, 0 ≤ x ∧ x ≤ recorded undo.vprevout := by
  have hvalues : (inputsOf tx).map (fun txin => (view.getOutputFor txin).nValue) =
      undo.vprevout.map fun r => r.txout.nValue := by
    have := congrArg (List.map CTxOut.nValue) (spendInputs_txouts hspent)
    rw [List.map_map, List.map_map] at this
    exact this.symm
  intro x hx
  rw [inputSums, hvalues] at hx
  have hmem := mem_scanl (fun y hy => by
    obtain ⟨r, hr, rfl⟩ := List.mem_map.mp hy
    exact hfits.nonneg r hr) 0 x hx
  rw [recorded]
  exact ⟨hmem.1, by linarith [hmem.2]⟩

/-- What comes in is bounded by what was there and what has gone out so far. -/
theorem mem_loopSums {B nFees nValueIn nValueOut : CAmount} (h : Sound blockOf view)
    (happlied : Applied nHeight view vtx undos view') (hvtx : ∀ tx ∈ vtx, tx ∈ (blockOf p).vtx)
    (houtputs : ∀ tx ∈ vtx, ∀ o ∈ tx.vout, Undo.Storable o)
    (hversion : ∀ tx ∈ vtx, -2 ^ 31 ≤ tx.nVersion ∧ tx.nVersion < 2 ^ 31)
    (hheight : 1 ≤ nHeight ∧ nHeight < 2 ^ 30) (hfees : 0 ≤ nFees) (hle : nFees ≤ nValueIn)
    (hin : nValueIn + view.total + createdValue vtx ≤ B) (hout : 0 ≤ nValueOut)
    (houtB : nValueOut + createdValue vtx ≤ B) :
    ∀ x ∈ loopSums nHeight view vtx nFees nValueIn nValueOut, 0 ≤ x ∧ x ≤ B := by
  induction happlied generalizing nFees nValueIn nValueOut with
  | nil view => exact nofun
  | @cons view mid view' tx undo vtx undos hspent hfresh hfee hrest ih =>
    have hone : ∀ o ∈ tx.vout, Undo.Storable o := houtputs tx List.mem_cons_self
    have hothers := fun tx' htx' => houtputs tx' (List.mem_cons_of_mem tx htx')
    have hfits := h.fitsTx hspent
    have hmid := (h.spends (spends_spendInputs hspent)).total_nonneg
    have hvout := valueOut_nonneg hone
    have hcreated := createdValue_nonneg hothers
    have hunspendable := unspendable_nonneg hone
    have hvin := getValueIn_eq_recorded hspent
    have hvin0 := recorded_nonneg hfits.nonneg
    have hmidtotal := total_spendInputs hspent
    have hnext := (total_addOutputs hfresh nHeight).trans (congrArg _
      (CCoins.total_fromTx (fun o ho => isNull_of_nonneg (hone o ho).nonneg) nHeight))
    have hsplit : createdValue (tx :: vtx) = valueOut tx + createdValue vtx := List.sum_cons
    rw [hsplit] at hin houtB
    have hfee' : 0 ≤ transactionFee view tx ∧ transactionFee view tx ≤ view.getValueIn tx := by
      unfold transactionFee
      cases hcb : tx.isCoinBase with
      | true => simp [getValueIn, hcb]
      | false =>
        cases hcs : tx.isCoinStake with
        | true =>
          rw [hvin]
          exact ⟨le_refl 0, hvin0⟩
        | false =>
          have := hfee hcb hcs
          simp only [Bool.or_self, Bool.false_eq_true, if_false]
          exact ⟨by linarith, by linarith⟩
    have hcoins := soundCoins_fromTx (hvtx tx List.mem_cons_self) hone
      (hversion tx List.mem_cons_self) hheight
    have hsound : Sound blockOf (mid.addOutputs tx nHeight) :=
      (h.spends (spends_spendInputs hspent)).putCoins fun _ => by
        rw [hcoins.tidy.cleanup]
        exact hcoins
    have htail : ∀ x ∈ loopSums nHeight (mid.addOutputs tx nHeight) vtx
        (nFees + transactionFee view tx) (nValueIn + view.getValueIn tx)
        (nValueOut + valueOut tx), 0 ≤ x ∧ x ≤ B :=
      ih hsound (fun tx' htx' => hvtx tx' (List.mem_cons_of_mem _ htx')) hothers
        (fun tx' htx' => hversion tx' (List.mem_cons_of_mem _ htx'))
        (by linarith) (by linarith) (by linarith) (by linarith) (by linarith)
    intro x hx
    rw [loopSums, afterTransaction_of_spent hspent, List.mem_append, List.mem_append] at hx
    rcases hx with (hx | hx) | hx
    · obtain ⟨hlo, hhi⟩ := mem_inputSums hspent hfits x hx
      exact ⟨hlo, by linarith⟩
    · simp only [List.mem_cons, List.not_mem_nil, or_false] at hx
      rcases hx with rfl | rfl | rfl | rfl <;> constructor <;> linarith
    · exact htail x hx

end SumBounds

/-! Accepted blocks. -/

/-- The blocks on the disk, as they come from the wire; where there is none, its transactions are
missing. None but the first is the genesis block, and none is one of the two that are exempt from
BIP30. -/
structure OnDisk (par : Params) (blockOf : CBlockIndex → CBlock) : Prop where
  distinct : Distinct blockOf
  nVersion : ∀ p, ∀ tx ∈ (blockOf p).vtx, -2 ^ 31 ≤ tx.nVersion ∧ tx.nVersion < 2 ^ 31
  outputs : ∀ p, ∀ tx ∈ (blockOf p).vtx, ∀ o ∈ tx.vout, Received o
  notGenesis : ∀ p q, p.parent? = some q → (blockOf p).getHash ≠ par.hashGenesisBlock
  notExempt : ∀ p, (blockOf p).vtx ≠ [] → bip30Exempt p = false

section Accept

variable {par : Params} {orc : Oracles} {env : Env} {disk : Disk} {fmt : Undo.Codec}
  {blockOf : CBlockIndex → CBlock} {view : CCoinsViewCache} {p q : CBlockIndex} {c : Connected}

/-- What is known of a block that was accepted once. -/
structure CheckedBlock (block : CBlock) : Prop where
  coinbase : ∃ cb rest, block.vtx = cb :: rest ∧ cb.isCoinBase = true ∧
    ∀ tx ∈ rest, tx.isCoinBase = false
  outputs : ∀ tx ∈ block.vtx, ∀ o ∈ tx.vout, Undo.Storable o

theorem CheckedBlock.notNull {block : CBlock} (h : CheckedBlock block) :
    ∀ tx ∈ block.vtx, ∀ o ∈ tx.vout, o.isNull = false := fun tx htx o ho =>
  isNull_of_nonneg (h.outputs tx htx o ho).nonneg

theorem height_pos (hp : p.parent? = some q) : (1 : ℤ) ≤ p.height := by
  cases p with
  | root a => cases hp
  | child p a =>
    rw [Lineage.height_child]
    omega

/-- An accepted block was applied, and its undo data fits. -/
structure AppliedBlock (blockOf : CBlockIndex → CBlock) (p : CBlockIndex) (view : CCoinsViewCache)
    (c : Connected) (W : CCoinsViewCache) (undo : CTxUndo) (undos : List CTxUndo) : Prop where
  checked : CheckedBlock (blockOf p)
  applied : Applied p.height view (blockOf p).vtx (undo :: undos) W
  result : c.view = W.setBestBlock p.getBlockHash
  blockundo : c.blockundo = ⟨undos⟩
  nMint : c.nMint = blockMint p.height view (blockOf p).vtx
  lengths : undos.length ≤ Undo.maxSize ∧
    ∀ tx ∈ (blockOf p).vtx, tx.vin.length ≤ Undo.maxSize

theorem appliedBlock_of_connectBlock (hdisk : OnDisk par blockOf)
    (hmoney : par.nMaxMoneyOut < 2 ^ 60) (hsound : Sound blockOf view)
    (hp : p.parent? = some q)
    (hconn : connectBlock par orc env disk (blockOf p) p view false = .ok c) :
    ∃ W undo undos, AppliedBlock blockOf p view c W undo undos := by
  obtain ⟨t, undos, h⟩ := connectBlock_ok (hdisk.notGenesis p q hp) hconn
  have hchecked := checkBlock_ok h.checked
  obtain ⟨cb, rest, hcb, hfirst, hrest⟩ := hchecked.coinbase
  have hnew := newTxs_of_accepted h (hdisk.notExempt p (by rw [hcb]; exact List.cons_ne_nil _ _))
    (hdisk.distinct p p)
  have happlied := @applied_of_connectTransactions _ _ _ _ _ _ _ _ _ _ [] _ _ hnew rfl
    (progress_nil hsound.tidy) h.connected
  have hmint : c.nMint = blockMint p.height view (blockOf p).vtx := by
    rw [h.nMint, (connectTransactions_ok h.connected).2]
    simp
  have hmax : maxBlockSize ≤ Undo.maxSize := by decide
  have hlen := length_updateAll (connectTransactions_updateAll h.connected)
  have hvtx := length_vtx_le (blockOf p)
  have hsize := hchecked.size
  cases undos with
  | nil =>
    rw [hcb] at hlen
    cases hlen
  | cons undo undos =>
    refine ⟨t.view, undo, undos, ⟨⟨cb, rest, hcb, hfirst, hrest⟩, fun tx htx o ho => ?_⟩,
      happlied, h.result, h.blockundo, hmint, ?_, fun tx htx => ?_⟩
    · have hrange := (checkTransaction_ok (hchecked.transactions tx htx)).2.2 o ho
      have hreceived := hdisk.outputs p tx htx o ho
      exact ⟨hrange.1, lt_of_le_of_lt hrange.2 hmoney, hreceived.script, hreceived.nRounds⟩
    · rw [List.length_cons] at hlen
      omega
    · have hsize := (checkTransaction_ok (hchecked.transactions tx htx)).2.1
      have hvin := length_vin_le tx
      omega

theorem FitsTx.length {tx : CTransaction} {undo : CTxUndo} (h : FitsTx blockOf tx undo) :
    undo.vprevout.length ≤ tx.vin.length := by
  rw [← List.Forall₂.length_eq h, inputsOf]
  split
  · exact Nat.zero_le _
  · exact le_refl _

theorem Fits.mem {vtx : List CTransaction} {undos : List CTxUndo} (h : Fits blockOf vtx undos) :
    ∀ undo ∈ undos, ∃ tx ∈ vtx, FitsTx blockOf tx undo := by
  induction h with
  | nil => exact nofun
  | @cons tx undo vtx undos hfit _ ih =>
    intro undo' hundo
    rcases List.mem_cons.mp hundo with rfl | hundo
    · exact ⟨tx, List.mem_cons_self, hfit⟩
    · obtain ⟨tx', htx', hfit'⟩ := ih undo' hundo
      exact ⟨tx', List.mem_cons_of_mem _ htx', hfit'⟩

theorem FitsTx.writable {tx : CTransaction} {undo : CTxUndo} (h : FitsTx blockOf tx undo) :
    ∀ r ∈ undo.vprevout, Undo.Writable r := by
  unfold FitsTx at h
  generalize inputsOf tx = vin at h
  generalize undo.vprevout = rs at h
  induction h with
  | nil => exact nofun
  | cons hfit _ ih =>
    intro r hr
    rcases List.mem_cons.mp hr with rfl | hr
    · exact hfit.2
    · exact ih r hr

theorem writable_stored {r : CTxInUndo} (h : Undo.Writable r) : Undo.Writable (Undo.stored r) := by
  have hversion := h.nVersion
  refine ⟨h.txout, h.nHeight, ?_, fun hheight => ?_⟩
  · simp only [Undo.stored, Undo.storedVersion]
    split <;> omega
  · simp only [Undo.stored, h.plain hheight]
    rfl

/-- The undo data that is read back fits as well. -/
theorem Fits.stored {vtx : List CTransaction} {undos : List CTxUndo} (h : Fits blockOf vtx undos) :
    Fits blockOf vtx (undos.map Undo.storedTx) := by
  refine List.forall₂_map_right_iff.mpr (List.Forall₂.imp (fun tx undo hfit => ?_) h)
  exact List.forall₂_map_right_iff.mpr
    (List.Forall₂.imp (fun txin r hr => ⟨hr.1, writable_stored hr.2⟩) hfit)

end Accept

/-! Runs. -/

section Runs

variable {par : Params} {fmt : Undo.Codec} {blockOf : CBlockIndex → CBlock} {s : Node}

/-- A block of the active chain: its undo data fits, and its sums are those of its transactions. -/
def OnChain (fmt : Undo.Codec) (blockOf : CBlockIndex → CBlock) (s : Node)
    (p q : CBlockIndex) : Prop :=
  CheckedBlock (blockOf p) ∧ ∃ undos, s.readUndo fmt p q = some ⟨undos⟩ ∧
    Fits blockOf (blockOf p).vtx.tail undos ∧
    s.nMoneySupply p = s.nMoneySupply q + createdValue (blockOf p).vtx - spentValue undos ∧
    s.nMint p = s.nMoneySupply p - s.nMoneySupply q

structure Consistent (fmt : Undo.Codec) (blockOf : CBlockIndex → CBlock) (s : Node) : Prop where
  sound : Sound blockOf s.pcoinsTip
  supply : s.nMoneySupply s.tip = s.pcoinsTip.total + activeUnspendable blockOf s.tip
  undo : ∀ p q, p.parent? = some q → s.undo p ≠ none →
    ∃ undos, s.readUndo fmt p q = some ⟨undos⟩ ∧ Fits blockOf (blockOf p).vtx.tail undos
  line : ∀ p ∈ s.tip.line, ∀ q, p.parent? = some q → OnChain fmt blockOf s p q

theorem consistent_start (genesis : BlockInfo) : Consistent fmt blockOf (start genesis) := by
  refine ⟨fun txid c hc => ?_, rfl, fun p q _ hne => absurd rfl hne, fun p hp q hq => ?_⟩
  · rw [unspent_eq_some] at hc
    rw [← hc.1] at hc
    cases hc.2
  · have hroot : p = .root genesis := List.mem_singleton.mp hp
    rw [hroot] at hq
    cases hq

theorem Consistent.conserved (h : Consistent fmt blockOf s) : Conserved blockOf s :=
  ⟨h.supply, fun p hp q hq => by
    obtain ⟨-, _, -, -, -, hmint⟩ := h.line p hp q hq
    exact hmint⟩

theorem parent_mem_line {p q r : CBlockIndex} (hp : p ∈ r.line) (hq : p.parent? = some q) :
    q ∈ r.line := by
  have hself : q ∈ p.line := by
    cases p with
    | root a => cases hq
    | child q' a =>
      obtain rfl := Option.some.inj hq
      exact List.mem_cons_of_mem _ (Lineage.self_mem_line q')
  exact Lineage.mem_line_trans hself hp

theorem notMem_line_of_parent {p q : CBlockIndex} (hq : p.parent? = some q) : p ∉ q.line := by
  intro hmem
  have hle := Lineage.height_le_of_mem_line hmem
  cases p with
  | root a => cases hq
  | child q' a =>
    obtain rfl := Option.some.inj hq
    rw [Lineage.height_child] at hle
    omega

/-- Nothing of the active chain is overwritten above it. -/
theorem setSupply_of_mem_line {p q : CBlockIndex} (hq : p.parent? = some s.tip)
    (hmem : q ∈ s.tip.line) (x : CAmount) :
    (s.setSupply p x).nMoneySupply q = s.nMoneySupply q ∧
      (s.setSupply p x).nMint q = s.nMint q := by
  have hne : q ≠ p := fun heq => notMem_line_of_parent hq (heq ▸ hmem)
  exact ⟨Function.update_of_ne hne _ _, Function.update_of_ne hne _ _⟩

theorem OnChain.congr {s' : Node} {p q : CBlockIndex} (h : OnChain fmt blockOf s p q)
    (hundo : s'.undo p = s.undo p) (hp : s'.nMoneySupply p = s.nMoneySupply p)
    (hq : s'.nMoneySupply q = s.nMoneySupply q) (hmint : s'.nMint p = s.nMint p) :
    OnChain fmt blockOf s' p q := by
  unfold OnChain Node.readUndo at *
  rw [hundo, hp, hq, hmint]
  exact h

/-- A block that is refused. -/
theorem Consistent.setSupply (h : Consistent fmt blockOf s) {p : CBlockIndex}
    (hp : p.parent? = some s.tip) (x : CAmount) :
    Consistent fmt blockOf (s.setSupply p x) := by
  refine ⟨h.sound, ?_, h.undo, fun p' hp' q hq => ?_⟩
  · exact (setSupply_of_mem_line hp (Lineage.self_mem_line s.tip) x).1.trans h.supply
  · obtain ⟨hsupply, hmint⟩ := setSupply_of_mem_line hp hp' x
    exact (h.line p' hp' q hq).congr rfl hsupply
      (setSupply_of_mem_line hp (parent_mem_line hp' hq) x).1 hmint

theorem activeUnspendable_of_parent {p q : CBlockIndex} (hq : p.parent? = some q) :
    activeUnspendable blockOf p =
      activeUnspendable blockOf q + unspendableValue (blockOf p).vtx := by
  cases p with
  | root a => cases hq
  | child q' a =>
    obtain rfl := Option.some.inj hq
    rfl

/-- The coinbase spends nothing. -/
theorem Fits.coinbase {vtx : List CTransaction} {undo : CTxUndo} {undos : List CTxUndo}
    {cb : CTransaction} (h : Fits blockOf (cb :: vtx) (undo :: undos))
    (hcb : cb.isCoinBase = true) :
    Fits blockOf vtx undos ∧ spentValue (undo :: undos) = spentValue undos := by
  cases h with
  | cons hfit hrest =>
    rw [FitsTx, inputsOf, if_pos hcb] at hfit
    refine ⟨hrest, ?_⟩
    simp only [spentValue, List.map_cons, List.sum_cons, recorded,
      List.forall₂_nil_left_iff.mp hfit, List.map_nil, List.sum_nil, Int.zero_add]

section Connect

variable {p : CBlockIndex} {c : Connected}

theorem connected_self (fmt : Undo.Codec) (c : Connected) (hp : p.parent? = some s.tip) :
    (s.connected fmt p c).nMoneySupply p = s.nMoneySupply s.tip + c.nMint ∧
      (s.connected fmt p c).nMint p = c.nMint := by
  refine ⟨Function.update_self _ _ _, (Function.update_self _ _ _).trans ?_⟩
  rw [hp, Option.map_some, Option.getD_some, add_sub_cancel_left]

theorem connected_of_mem_line (fmt : Undo.Codec) (c : Connected) {q : CBlockIndex}
    (hp : p.parent? = some s.tip) (hq : q ∈ s.tip.line) :
    (s.connected fmt p c).nMoneySupply q = s.nMoneySupply q ∧
      (s.connected fmt p c).nMint q = s.nMint q :=
  setSupply_of_mem_line hp hq _

/-- Undo data is written for the block only, if at all. -/
theorem connected_undo {undos : List CTxUndo} (h : Consistent fmt blockOf s)
    (hp : p.parent? = some s.tip)
    (hread : Undo.readFromDisk fmt (CBlockIndex.getBlockHash s.tip)
      (Undo.writeToDisk fmt (CBlockIndex.getBlockHash s.tip) c.blockundo) = some ⟨undos⟩)
    (hfits : Fits blockOf (blockOf p).vtx.tail undos) :
    (∃ undos', (s.connected fmt p c).readUndo fmt p s.tip = some ⟨undos'⟩ ∧
      Fits blockOf (blockOf p).vtx.tail undos') ∧
      ∀ p', p' ≠ p → (s.connected fmt p c).undo p' = s.undo p' := by
  have hundo : (s.connected fmt p c).undo = s.writeUndo fmt p s.tip c.blockundo := rfl
  by_cases hnone : s.undo p = none
  · rw [Node.writeUndo, if_pos hnone] at hundo
    refine ⟨⟨undos, ?_, hfits⟩, fun p' hne => ?_⟩
    · rw [Node.readUndo, hundo, Function.update_self]
      exact hread
    · rw [hundo, Function.update_of_ne hne]
  · rw [Node.writeUndo, if_neg hnone] at hundo
    obtain ⟨undos', hundos', hfits'⟩ := h.undo p s.tip hp hnone
    exact ⟨⟨undos', by rw [Node.readUndo, hundo]; exact hundos', hfits'⟩,
      fun p' _ => by rw [hundo]⟩

/-- A block that is connected. -/
theorem Consistent.connect (hdisk : OnDisk par blockOf) (hmoney : par.nMaxMoneyOut < 2 ^ 60)
    (hkeys : fmt.toKeys.Lawful) (h : Consistent fmt blockOf s) {orc : Oracles} {env : Env}
    {disk : Disk} (hp : p.parent? = some s.tip) (hheight : p.height < 2 ^ 30)
    (hconn : connectBlock par orc env disk (blockOf p) p s.pcoinsTip false = .ok c) :
    Consistent fmt blockOf (s.connected fmt p c) := by
  obtain ⟨W, undo, undos, hblock⟩ := appliedBlock_of_connectBlock hdisk hmoney h.sound hp hconn
  have hpos := height_pos hp
  obtain ⟨hsoundW, hfits⟩ := h.sound.applied hblock.applied (fun _ htx => htx)
    hblock.checked.outputs (hdisk.nVersion p) ⟨hpos, by omega⟩
  obtain ⟨cb, rest, hvtx, hcb, -⟩ := hblock.checked.coinbase
  obtain ⟨htail, hspent⟩ : Fits blockOf (blockOf p).vtx.tail undos ∧
      spentValue (undo :: undos) = spentValue undos := by
    rw [hvtx] at hfits ⊢
    exact hfits.coinbase hcb
  -- what was written can be read
  have hread : Undo.readFromDisk fmt (CBlockIndex.getBlockHash s.tip)
      (Undo.writeToDisk fmt (CBlockIndex.getBlockHash s.tip) c.blockundo) =
        some ⟨undos.map Undo.storedTx⟩ := by
    rw [hblock.blockundo]
    refine Undo.readFromDisk_writeToDisk hkeys _ ⟨hblock.lengths.1, fun undo' hundo => ?_,
      fun undo' hundo => ?_⟩
    · obtain ⟨tx, htx, hfit⟩ := htail.mem undo' hundo
      exact hfit.length.trans (hblock.lengths.2 tx (List.mem_of_mem_tail htx))
    · obtain ⟨tx, -, hfit⟩ := htail.mem undo' hundo
      exact hfit.writable
  obtain ⟨⟨undos', hundos', hfits'⟩, hothers⟩ := connected_undo h hp hread htail.stored
  have hmint : c.nMint = createdValue (blockOf p).vtx - spentValue undos := by
    rw [hblock.nMint, hblock.applied.blockMint, hspent]
  obtain ⟨hsupply, hnMint⟩ := connected_self fmt c hp
  have hprev := (connected_of_mem_line fmt c hp (Lineage.self_mem_line s.tip)).1
  refine ⟨fun txid c' hc' => ?_, ?_, fun p' q hq hne => ?_, fun p' hp' q hq => ?_⟩
  · rw [show (s.connected fmt p c).pcoinsTip = W.setBestBlock p.getBlockHash from hblock.result,
      unspent_setBestBlock] at hc'
    exact hsoundW txid c' hc'
  · have htotal := hblock.applied.total hblock.checked.notNull
    have hold := h.supply
    rw [show (s.connected fmt p c).pcoinsTip = W.setBestBlock p.getBlockHash from hblock.result,
      show (s.connected fmt p c).tip = p from rfl, hsupply, total_setBestBlock,
      activeUnspendable_of_parent hp, htotal, hmint, hspent]
    linarith
  · by_cases heq : p' = p
    · subst heq
      obtain rfl := Option.some.inj (hp.symm.trans hq)
      exact ⟨undos', hundos', hfits'⟩
    · rw [hothers p' heq] at hne
      obtain ⟨undos'', hundos'', hfits''⟩ := h.undo p' q hq hne
      exact ⟨undos'', by rw [Node.readUndo, hothers p' heq]; exact hundos'', hfits''⟩
  · by_cases heq : p' = p
    · subst heq
      obtain rfl := Option.some.inj (hp.symm.trans hq)
      refine ⟨hblock.checked, undos', hundos', hfits', ?_, ?_⟩
      · rw [hsupply, hprev, hmint, htail.spentValue_eq hdisk.distinct hfits']
        linarith
      · rw [hsupply, hprev, hnMint, add_sub_cancel_left]
    · have hmem : p' ∈ s.tip.line := by
        cases p with
        | root a => cases hp
        | child q' a =>
          obtain rfl := Option.some.inj hp
          exact (List.mem_cons.mp hp').resolve_left heq
      obtain ⟨hsame, hm⟩ := connected_of_mem_line fmt c hp hmem
      exact (h.line p' hmem q hq).congr (hothers p' heq) hsame
        (connected_of_mem_line fmt c hp (parent_mem_line hmem hq)).1 hm

end Connect

/-- A block that is disconnected. -/
theorem Consistent.disconnect (h : Consistent fmt blockOf s) {q : CBlockIndex}
    (hq : s.tip.parent? = some q) {view : CCoinsViewCache}
    (hdis : disconnectBlock (blockOf s.tip) (s.readUndo fmt s.tip q) s.tip s.pcoinsTip =
      .ok (view, true)) :
    Consistent fmt blockOf { s with pcoinsTip := view, tip := q } := by
  obtain ⟨hchecked, undos, hread, hfits, hsupply, -⟩ :=
    h.line s.tip (Lineage.self_mem_line s.tip) q hq
  obtain ⟨-, undo, cb, rest, X, hundo, hvtx, -, hrest, hcleared, hview⟩ :=
    (disconnectBlock_clean hq).mp hdis
  obtain rfl := Option.some.inj (hread.symm.trans hundo)
  obtain ⟨cb', rest', hvtx', -, hcb⟩ := hchecked.coinbase
  obtain ⟨rfl, rfl⟩ := List.cons.inj (hvtx'.symm.trans hvtx)
  have hnull := hchecked.notNull
  rw [hvtx] at hnull hfits
  obtain ⟨hsound, htotal⟩ := h.sound.disconnectTransactions hfits hcb
    (fun tx htx => hnull tx (List.mem_cons_of_mem _ htx)) hrest
  obtain ⟨hsound', htotal'⟩ := hsound.clearOutputs (hnull cb' List.mem_cons_self) hcleared
  have hline : q ∈ s.tip.line := parent_mem_line (Lineage.self_mem_line s.tip) hq
  refine ⟨fun txid c hc => ?_, ?_, h.undo, fun p hp q' hq' =>
    h.line p (Lineage.mem_line_trans hp hline) q' hq'⟩
  · rw [← hview] at hc
    exact hsound' txid c hc
  · have hold := h.supply
    rw [activeUnspendable_of_parent hq] at hold
    rw [hvtx] at hold hsupply
    simp only [createdValue, unspendableValue, List.map_cons, List.sum_cons, List.tail_cons]
      at hold hsupply htotal
    simp only [← hview, total_setBestBlock, htotal', htotal]
    linarith

theorem Consistent.step (hdisk : OnDisk par blockOf) (hmoney : par.nMaxMoneyOut < 2 ^ 60)
    (hkeys : fmt.toKeys.Lawful) (h : Consistent fmt blockOf s) {e : Event}
    (hbounded : Bounded blockOf s e) : Consistent fmt blockOf (step par fmt blockOf s e) := by
  cases e with
  | connectTip orc env disk p left =>
    change Consistent fmt blockOf (connectTip par fmt blockOf s orc env disk p left)
    unfold connectTip
    by_cases hp : p.parent? = some s.tip
    · simp only [if_pos hp]
      cases hconn : connectBlock par orc (s.env env) disk (blockOf p) p s.pcoinsTip false with
      | ok c => exact h.connect hdisk hmoney hkeys hp hbounded.1 hconn
      | error e =>
        cases left with
        | none => exact h
        | some x => exact h.setSupply hp x
    · simp only [if_neg hp]
      exact h
  | disconnectTip =>
    change Consistent fmt blockOf (disconnectTip fmt blockOf s)
    unfold disconnectTip
    split
    · exact h
    next q hq =>
    split
    · next view hdis => exact h.disconnect hq hdis
    · exact h

theorem activeUnspendable_nonneg (h : ∀ p ∈ s.tip.line, ∀ q, p.parent? = some q →
    CheckedBlock (blockOf p)) : 0 ≤ activeUnspendable blockOf s.tip := by
  generalize s.tip = tip at h
  induction tip with
  | root a => exact le_refl 0
  | child p a ih =>
    have hone := h (.child p a) (Lineage.self_mem_line _) p rfl
    have hrest := ih fun p' hp' => h p' (List.mem_cons_of_mem _ hp')
    have hblock := unspendableValue_nonneg hone.outputs
    rw [activeUnspendable]
    linarith

/-- The sums fit when the supply with all outputs of the block does, and only then. -/
theorem Consistent.sums_iff (hdisk : OnDisk par blockOf) (hmoney : par.nMaxMoneyOut < 2 ^ 60)
    (h : Consistent fmt blockOf s) {orc : Oracles} {env : Env} {disk : Disk} {p : CBlockIndex}
    {c : Connected} (hp : p.parent? = some s.tip) (hheight : p.height < 2 ^ 30)
    (hconn : connectBlock par orc env disk (blockOf p) p s.pcoinsTip false = .ok c) :
    (∀ x ∈ blockSums blockOf s p, InInt64 x) ↔
      s.nMoneySupply s.tip + createdValue (blockOf p).vtx < 2 ^ 63 := by
  obtain ⟨W, undo, undos, hblock⟩ := appliedBlock_of_connectBlock hdisk hmoney h.sound hp hconn
  have hpos := height_pos hp
  constructor
  · intro hall
    exact (hall _ (List.mem_append_right _ List.mem_cons_self)).2
  · intro hlt
    have hunspendable := activeUnspendable_nonneg fun p' hp' q hq => (h.line p' hp' q hq).1
    have hview := h.sound.total_nonneg
    have hsupply := h.supply
    have hcreated := createdValue_nonneg hblock.checked.outputs
    obtain ⟨hsound, hfits⟩ := h.sound.applied hblock.applied (fun _ htx => htx)
      hblock.checked.outputs (hdisk.nVersion p) ⟨hpos, by omega⟩
    have htotal := hblock.applied.total hblock.checked.notNull
    have hblockUnspendable := unspendableValue_nonneg hblock.checked.outputs
    have hW := hsound.total_nonneg
    have hspent : 0 ≤ spentValue (undo :: undos) :=
      List.sum_nonneg fun x hx => by
        obtain ⟨undo', hundo, rfl⟩ := List.mem_map.mp hx
        obtain ⟨tx, -, hfit⟩ := hfits.mem undo' hundo
        exact recorded_nonneg hfit.nonneg
    have hmint := hblock.applied.blockMint
    have hloop := mem_loopSums h.sound hblock.applied (fun _ htx => htx) hblock.checked.outputs
      (hdisk.nVersion p) ⟨hpos, by omega⟩ (le_refl 0) (le_refl 0)
      (B := s.nMoneySupply s.tip + createdValue (blockOf p).vtx) (by linarith) (le_refl 0)
      (by linarith)
    intro x hx
    rw [blockSums, List.mem_append] at hx
    unfold InInt64
    rcases hx with hx | hx
    · obtain ⟨hlo, hhi⟩ := hloop x hx
      exact ⟨by linarith, by linarith⟩
    · simp only [List.mem_cons, List.not_mem_nil, or_false] at hx
      rcases hx with rfl | rfl | rfl
      · exact ⟨by linarith, hlt⟩
      · rw [hmint]
        exact ⟨by linarith, by linarith⟩
      · rw [hmint]
        exact ⟨by linarith, by linarith⟩

/-- In every run in which the money supply with the outputs of each block stays below the limit,
coins are conserved and no sum overflows; and the limit is exact for a further block. -/
theorem coins_conserved (hdisk : OnDisk par blockOf) (hmoney : par.nMaxMoneyOut < 2 ^ 60)
    (hkeys : fmt.toKeys.Lawful) (genesis : BlockInfo) (es : List Event)
    (hes : Meets (step par fmt blockOf) (Bounded blockOf) (start genesis) es) :
    Conserved blockOf (run (step par fmt blockOf) (start genesis) es) ∧
      Meets (step par fmt blockOf) (SumsFit par blockOf) (start genesis) es ∧
      ∀ orc env disk p c, p.parent? = some (run (step par fmt blockOf) (start genesis) es).tip →
        p.height < 2 ^ 30 →
        connectBlock par orc env disk (blockOf p) p
          (run (step par fmt blockOf) (start genesis) es).pcoinsTip false = .ok c →
        ((∀ x ∈ blockSums blockOf (run (step par fmt blockOf) (start genesis) es) p, InInt64 x) ↔
          Bounded blockOf (run (step par fmt blockOf) (start genesis) es)
            (.connectTip orc env disk p none)) := by
  have hstep : ∀ s e, Consistent fmt blockOf s → Bounded blockOf s e →
      Consistent fmt blockOf (step par fmt blockOf s e) := fun s e h hb =>
    h.step hdisk hmoney hkeys hb
  have hfit : ∀ s e, Consistent fmt blockOf s → Bounded blockOf s e → SumsFit par blockOf s e := by
    intro s e h hb
    cases e with
    | connectTip orc env disk p left =>
      intro hp c hconn
      exact (h.sums_iff hdisk hmoney hp hb.1 hconn).mpr hb.2
    | disconnectTip => trivial
  have hstart : Consistent fmt blockOf (start genesis) := consistent_start genesis
  have hrun := run_invariant hstep hstart hes
  refine ⟨hrun.conserved, Meets.of_invariant hstep hfit hstart hes, ?_⟩
  intro orc env disk p c hp hheight hconn
  exact (hrun.sums_iff hdisk hmoney hp hheight hconn).trans
    ⟨fun hlt => ⟨hheight, hlt⟩, fun hb => hb.2⟩

end Runs

/-! A node that is not synced takes any amount in the first hundred blocks of a cycle. The coinbase
of block 1 takes all coins that there can be, and block 21 passes them on 1845 times. -/

def growthBlock (p : CBlockIndex) : CBlock :=
  if p.height = 0 then plainBlock 1000 0 [emptyCoinbase 2000]
  else if p.height = 1 then plainBlock 1001 1000 [coinbaseOf 3000 [relayOut mainMaxMoneyOut]]
  else if p.height ≤ 20 then
    plainBlock (BitVec.ofNat 256 (1000 + p.height)) (BitVec.ofNat 256 (999 + p.height))
      [emptyCoinbase (BitVec.ofNat 256 (2000 + p.height))]
  else if p.height = 21 then relayBlock mainMaxMoneyOut 1845
  else plainBlock 1 0 []

def growth (n : ℕ) : List Event :=
  (List.range n).map fun i =>
    .connectTip plainOracles (syncingEnv i) {} (plainChain (i + 1)) none

/-- The transaction of a hash. -/
def growthTx (hash : Uint256) : CTransaction :=
  if hash.toNat < 3000 then emptyCoinbase hash
  else if hash.toNat = 3000 then coinbaseOf 3000 [relayOut mainMaxMoneyOut]
  else relay mainMaxMoneyOut (hash.toNat - 3001)

theorem toNat_relayHash {j : ℕ} (hj : j ≤ 1845) : (relayHash j).toNat = 3000 + j := by
  rw [relayHash, BitVec.toNat_ofNat, Nat.mod_eq_of_lt (by omega)]

theorem mem_growthBlock {p : CBlockIndex} {tx : CTransaction} (h : tx ∈ (growthBlock p).vtx) :
    p.height ≤ 21 ∧ growthTx tx.hash = tx ∧ tx.nVersion = 1 ∧
      ∀ o ∈ tx.vout, Received o := by
  have hplain : Received ⟨0, [], -10⟩ := ⟨by decide, rfl⟩
  have hrelay : Received (relayOut mainMaxMoneyOut) := ⟨by decide, rfl⟩
  have hempty : ∀ hash : Uint256, hash.toNat < 3000 →
      growthTx (emptyCoinbase hash).hash = emptyCoinbase hash := fun hash hlt => if_pos hlt
  unfold growthBlock at h
  split at h
  · next hp =>
    obtain rfl := List.mem_singleton.mp h
    refine ⟨by omega, hempty 2000 (by decide), rfl, fun o ho => ?_⟩
    rw [List.mem_singleton.mp ho]
    exact hplain
  split at h
  · next hp =>
    obtain rfl := List.mem_singleton.mp h
    refine ⟨by omega, rfl, rfl, fun o ho => ?_⟩
    rw [List.mem_singleton.mp ho]
    exact hrelay
  split at h
  · next hp =>
    obtain rfl := List.mem_singleton.mp h
    refine ⟨by omega, hempty _ ?_, rfl, fun o ho => ?_⟩
    · rw [BitVec.toNat_ofNat, Nat.mod_eq_of_lt (by omega)]
      omega
    · rw [List.mem_singleton.mp ho]
      exact hplain
  split at h
  · next hp =>
    rcases List.mem_cons.mp h with rfl | h
    · refine ⟨by omega, hempty 2021 (by decide), rfl, fun o ho => ?_⟩
      rw [List.mem_singleton.mp ho]
      exact hplain
    · obtain ⟨j, -, hj, rfl⟩ := mem_relays h
      have hhash : (relay mainMaxMoneyOut j).hash = relayHash (j + 1) := rfl
      refine ⟨by omega, ?_, rfl, fun o ho => ?_⟩
      · rw [hhash, growthTx, toNat_relayHash (by omega), if_neg (by omega), if_neg (by omega)]
        have hsub : 3000 + (j + 1) - 3001 = j := by omega
        rw [hsub]
      · rw [List.mem_singleton.mp ho]
        exact hrelay
  · cases h

theorem onDisk_growth : OnDisk mainParams growthBlock := by
  refine ⟨fun p q tx htx tx' htx' hhash => ?_, fun p tx htx => ?_,
    fun p tx htx => (mem_growthBlock htx).2.2.2, fun p q hp => ?_, fun p hne => ?_⟩
  · rw [← (mem_growthBlock htx).2.1, ← (mem_growthBlock htx').2.1, hhash]
  · rw [(mem_growthBlock htx).2.2.1]
    decide
  · have hpos := height_pos hp
    unfold growthBlock
    rw [if_neg (by omega)]
    split
    · decide
    split
    · next hle =>
      intro heq
      have htoNat := congrArg BitVec.toNat heq
      have h1000 : mainParams.hashGenesisBlock.toNat = 1000 := rfl
      have hhash : (plainBlock (BitVec.ofNat 256 (1000 + p.height))
          (BitVec.ofNat 256 (999 + p.height))
          [emptyCoinbase (BitVec.ofNat 256 (2000 + p.height))]).getHash.toNat =
            1000 + p.height :=
        (BitVec.toNat_ofNat _ _).trans (Nat.mod_eq_of_lt (by omega))
      rw [hhash, h1000] at htoNat
      omega
    split
    · exact show ¬(1021 : Uint256) = 1000 by decide
    · exact show ¬(1 : Uint256) = 1000 by decide
  · obtain ⟨tx, htx⟩ := List.exists_mem_of_ne_nil _ hne
    have hheight := (mem_growthBlock htx).1
    have h1 : (p.height == 91842) = false := by
      rw [beq_eq_false_iff_ne]
      omega
    have h2 : (p.height == 91880) = false := by
      rw [beq_eq_false_iff_ne]
      omega
    simp only [bip30Exempt, h1, h2, Bool.false_and, Bool.or_self]

/-- The node at height 20. -/
def growthNode : Node :=
  run (step mainParams bareCodec growthBlock) (start (plainChain 0).label) (growth 20)

theorem growthNode_facts : growthNode.tip = plainChain 20 ∧
    growthNode.pcoinsTip.hashBlock = 1020 ∧
    growthNode.nMoneySupply (plainChain 20) = mainMaxMoneyOut ∧
    growthNode.pcoinsTip.unspent 3000 =
      some ⟨true, false, [relayOut mainMaxMoneyOut], 1, 1⟩ ∧
    growthNode.pcoinsTip.cacheCoins.toList.all (fun e =>
      decide (e.1.toNat < 3001) && e.1 != 2021) = true := by
  decide

theorem supply_sum_overflows :
    growthNode.tip = plainChain 20 ∧
      ∃ c, connectBlock mainParams plainOracles (growthNode.env (syncingEnv 20)) {}
          (growthBlock (plainChain 21)) (plainChain 21) growthNode.pcoinsTip false = .ok c ∧
        ∃ x ∈ blockSums growthBlock growthNode (plainChain 21), ¬InInt64 x := by
  obtain ⟨htip, hhash, hsupply, hmint, hkeys⟩ := growthNode_facts
  have hblock : growthBlock (plainChain 21) = relayBlock mainMaxMoneyOut 1845 := rfl
  have hreadyenv : growthNode.env (syncingEnv 20) = relayEnv growthNode.nMoneySupply := by
    rw [Node.env, htip]
    rfl
  have hpos : 0 ≤ mainMaxMoneyOut := by decide
  have hnone : ∀ txid : Uint256, 3001 ≤ txid.toNat ∨ txid = 2021 →
      growthNode.pcoinsTip.unspent txid = none := by
    intro txid htxid
    rw [unspent, accessCoins]
    cases hfind : growthNode.pcoinsTip.cacheCoins.find txid with
    | none => rfl
    | some c =>
      have hkey := List.all_eq_true.mp hkeys _ (Dict.mem_toList.mpr hfind)
      simp only [Bool.and_eq_true, decide_eq_true_eq, bne_iff_ne, ne_eq] at hkey
      rcases htxid with htxid | htxid
      · omega
      · exact absurd htxid hkey.2
  refine ⟨htip, ?_⟩
  rw [hblock, hreadyenv]
  have hfresh : ∀ tx ∈ (relayBlock mainMaxMoneyOut 1845).vtx,
      growthNode.pcoinsTip.unspent tx.hash = none := by
    intro tx htx
    rcases List.mem_cons.mp htx with rfl | htx
    · exact hnone _ (.inr rfl)
    · obtain ⟨j, -, hj, rfl⟩ := mem_relays htx
      refine hnone _ (.inl ?_)
      rw [show (relay mainMaxMoneyOut j).hash = relayHash (j + 1) from rfl,
        toNat_relayHash (by omega)]
      omega
  have hready : Ready mainParams (relayEnv growthNode.nMoneySupply) mainMaxMoneyOut 0
      growthNode.pcoinsTip := by
    refine ⟨⟨plainChain 20, ?_, fun c hc _ => ?_⟩, ?_⟩
    · rw [hhash]
      decide
    · rw [show relayHash 0 = 3000 from rfl, hmint] at hc
      rw [← Option.some.inj hc]
      decide
    · rw [output_eq, show relayHash 0 = 3000 from rfl, hmint]
      rfl
  obtain ⟨c, hc⟩ := relayBlock_connects hpos (le_refl _) (show 1845 ≤ 16000 by decide) hhash hfresh
    hready
  refine ⟨c, hc, _, List.mem_append_right _ List.mem_cons_self, fun hfits => ?_⟩
  have hcreated : createdValue (relayBlock mainMaxMoneyOut 1845).vtx = 1845 * mainMaxMoneyOut := by
    refine (List.sum_cons (a := valueOut (emptyCoinbase 2021))).trans ?_
    have hcb : valueOut (emptyCoinbase 2021) = 0 := rfl
    rw [hcb, zero_add]
    exact createdValue_relays mainMaxMoneyOut 0 1845
  have hlt := hfits.2
  rw [htip, hsupply, hblock, hcreated] at hlt
  exact absurd hlt (by decide)

/-- The first block is connected, disconnected and connected again. -/
theorem coins_conserved_sample :
    Conserved growthBlock (run (step mainParams bareCodec growthBlock)
      (start (plainChain 0).label) (growth 1 ++ [.disconnectTip] ++ growth 1)) := by
  have hbounded : Meets (step mainParams bareCodec growthBlock) (Bounded growthBlock)
      (start (plainChain 0).label) (growth 1 ++ [.disconnectTip] ++ growth 1) := by
    refine ⟨⟨by decide, ?_⟩, trivial, ⟨by decide, ?_⟩, trivial⟩ <;> decide
  have hkeys : bareCodec.toKeys.Lawful := fun _ _ _ hvalid => nomatch hvalid
  exact (coins_conserved onDisk_growth (by decide) hkeys (plainChain 0).label _ hbounded).1

end Scrypta.Supply
