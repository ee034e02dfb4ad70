import Scrypta.ReorgDepth

/-! A node at rest that receives blocks with all checks passed. A block over the tip becomes
the tip, a block with no more work than the tip is stored beside the active chain, and a block
with more work makes the node leave its chain down to the fork. -/

namespace Scrypta.Chainstate

open Kernel (BlockMap)

/-- Nothing objects to a block. -/
def passing : Checks := ⟨fun _ _ _ => true, fun _ _ _ => true, fun _ _ _ => .connected, true⟩

def connecting : Blocks := ⟨fun _ => .connected, fun _ => true⟩

/-- Every block of the index is complete, descends from blocks of the index, and has the
difficulty `nBits`. -/
structure Stored (nBits : BitVec 32) (n : Node) : Prop where
  hash : ∀ h b, n.mapBlockIndex.find h = some b → b.getBlockHash = h
  line : ∀ h b, n.mapBlockIndex.find h = some b →
    ∀ x ≤ b, n.mapBlockIndex.find x.getBlockHash = some x
  bits : ∀ h b, n.mapBlockIndex.find h = some b → b.label.nBits = nBits
  complete : ∀ h b, n.mapBlockIndex.find h = some b →
    unusable n b = false ∧ (n.entry b).nChainTx ≠ 0 ∧
      (n.entry b).nSequenceId < n.nBlockSequenceId

/-- The node rests on the tip `t`. -/
structure AtRest (nBits : BitVec 32) (n : Node) (t : CBlockIndex) : Prop
    extends Stored nBits n where
  tip : n.tip = some t
  tip_known : n.mapBlockIndex.find t.getBlockHash = some t
  candidates : n.setBlockIndexCandidates = [t]
  unlinked : n.mapBlocksUnlinked = []

/-- A new block over the block `p` of the index that passes the depth test. -/
structure Fresh (cp : ChainParams) (n : Node) (block : CBlock) (p : CBlockIndex) : Prop where
  new : n.mapBlockIndex.find block.hash = none
  not_genesis : block.hash ≠ cp.hashGenesisBlock
  prev : n.mapBlockIndex.find block.hashPrevBlock = some p
  depth : n.chainActive.height - (p.height + 1 : ℤ) < cp.nMaxReorganizationDepth
  vtx : block.vtx ≠ []

section Accept

variable (par : Kernel.Params) {cp : ChainParams} {nBits : BitVec 32} {n : Node}
  {t p : CBlockIndex} {block : CBlock}

/-- The entry of an admitted block: complete, and numbered after all others. -/
def completeEntry (n : Node) (p : CBlockIndex) (block : CBlock) : Entry where
  nTx := block.vtx.length
  nChainTx := (n.entry p).nChainTx + block.vtx.length
  nSequenceId := n.nBlockSequenceId
  fHaveData := true

theorem acceptBlockHeader_fresh (hn : AtRest nBits n t) (hb : Fresh cp n block p) :
    acceptBlockHeader par cp passing n block =
      ((n.addBlock par block).1, some (Kernel.newBlockIndex par n.mapBlockIndex block)) := by
  have hfailed : (n.entry p).failed = false :=
    (Bool.or_eq_false_iff.mp (hn.complete _ p hb.prev).1).1
  have hctx : contextualCheckBlockHeader cp passing n block p = true := by
    rw [contextualCheckBlockHeader, if_neg (Int.not_le.mpr hb.depth)]
    rfl
  simp only [acceptBlockHeader, hb.new, if_neg hb.not_genesis, hb.prev, hfailed, hctx]
  rfl

theorem parent?_ne {b : CBlockIndex} (h : b.parent? = some p) : p ≠ b := by
  cases b with
  | root x => cases h
  | child q x =>
    cases h
    intro he
    have := congrArg Lineage.height he
    rw [Lineage.height_child] at this
    omega

/-- A new block without waiting descendants is numbered, and is a candidate if it is no worse
than the tip. -/
theorem receivedBlockTransactions_new (block : CBlock) {m : Node} {b : CBlockIndex}
    (hp : b.parent? = some p) (htip : m.tip = some t) (hunlinked : m.mapBlocksUnlinked = [])
    (hentry : m.entry b = {}) (htx : (m.entry p).nChainTx ≠ 0) :
    let m' := { m with
      entry := Function.update m.entry b (completeEntry m p block)
      nBlockSequenceId := m.nBlockSequenceId + 1 }
    receivedBlockTransactions m block b = if m'.workLess b t then m' else m'.insertCandidate b := by
  have hpb : p ≠ b := parent?_ne hp
  intro m'
  have hupd : ∀ e e' : Entry, Function.update (Function.update m.entry b e) b e' =
      Function.update m.entry b e' := fun e e' => Function.update_idem e e' m.entry
  have hlink : linkBlock (m.modifyEntry b fun e =>
      { e with nTx := block.vtx.length, nChainTx := 0, fHaveData := true }) b =
      if m'.workLess b t then m' else m'.insertCandidate b := by
    simp only [linkBlock, Node.modifyEntry, hupd, nChainTxBelow, hp, Function.update_self,
      Function.update_of_ne hpb, hentry]
    split
    · next h => cases h.symm.trans htip
    · next t' h =>
      obtain rfl : t' = t := Option.some.inj (h.symm.trans htip)
      rfl
  have hun : ∀ x : Node, x.mapBlocksUnlinked = [] → { x with
      mapBlocksUnlinked := x.mapBlocksUnlinked.filter (·.1 ≠ b) } = x := by
    rintro ⟨⟩ h
    cases h
    rfl
  simp only [receivedBlockTransactions, hp]
  rw [if_pos (by simpa [Node.modifyEntry, Function.update_of_ne hpb] using htx),
    show (m.modifyEntry b _).mapBlocksUnlinked = [] from hunlinked]
  simp only [List.length_nil, linkQueue, hlink]
  refine hun _ ?_
  split
  · exact hunlinked
  · unfold Node.insertCandidate
    split <;> exact hunlinked

/-- The node after it stored a new block over `p`, its candidates left aside. -/
def received (par : Kernel.Params) (n : Node) (p : CBlockIndex) (block : CBlock) : Node :=
  { n with
    mapBlockIndex := Kernel.addToBlockIndex par n.mapBlockIndex block
    entry := Function.update n.entry (Kernel.newBlockIndex par n.mapBlockIndex block)
      (completeEntry n p block)
    nBlockSequenceId := n.nBlockSequenceId + 1 }

theorem newBlockIndex_fresh (hb : Fresh cp n block p) :
    ∃ x : BlockInfo, Kernel.newBlockIndex par n.mapBlockIndex block = .child p x ∧
      x.hash = block.hash ∧ x.nBits = block.nBits :=
  ⟨_, Kernel.newBlockIndex_child hb.prev rfl, rfl, rfl⟩

theorem parent?_newBlockIndex (hb : Fresh cp n block p) :
    (Kernel.newBlockIndex par n.mapBlockIndex block).parent? = some p := by
  obtain ⟨x, hx, -, -⟩ := newBlockIndex_fresh par hb
  rw [hx]
  rfl

theorem acceptBlock_fresh (hn : AtRest nBits n t) (hb : Fresh cp n block p) :
    acceptBlock par cp passing n block =
      (if (received par n p block).workLess (Kernel.newBlockIndex par n.mapBlockIndex block) t then
        received par n p block
      else (received par n p block).insertCandidate
        (Kernel.newBlockIndex par n.mapBlockIndex block), true) := by
  generalize hbdef : Kernel.newBlockIndex par n.mapBlockIndex block = b
  have hparent : b.parent? = some p := hbdef ▸ parent?_newBlockIndex _ hb
  have hpb := parent?_ne hparent
  have hfailed : (n.entry p).failed = false :=
    (Bool.or_eq_false_iff.mp (hn.complete _ p hb.prev).1).1
  have hprev : checkPrev cp passing n block = true := by
    simp only [checkPrev, if_neg hb.not_genesis, hb.prev, hfailed]
    rfl
  have hadd : (n.addBlock par block).1.entry = Function.update n.entry b {} := by
    rw [← hbdef]
    rfl
  have hentry : (n.addBlock par block).1.entry b = {} := by rw [hadd, Function.update_self]
  have hp : (n.addBlock par block).1.entry p = n.entry p := by
    rw [hadd, Function.update_of_ne hpb]
  have hreceived := receivedBlockTransactions_new block (m := (n.addBlock par block).1) (t := t)
    hparent hn.tip hn.unlinked hentry
    (by rw [hp]; exact (hn.complete _ p hb.prev).2.1)
  have hreceived₀ : ({ (n.addBlock par block).1 with
      entry := Function.update (n.addBlock par block).1.entry b
        (completeEntry (n.addBlock par block).1 p block)
      nBlockSequenceId := (n.addBlock par block).1.nBlockSequenceId + 1 } : Node) =
      received par n p block := by
    rw [hadd, Function.update_idem, completeEntry, hp]
    simp only [received, hbdef]
    rfl
  rw [acceptBlock, if_pos hprev, acceptBlockHeader_fresh _ hn hb, hbdef]
  simp only [storeBlock, hentry]
  rw [hreceived₀] at hreceived
  simp only [hreceived]
  rfl

theorem find_received (hb : Fresh cp n block p) (h : Uint256) :
    (received par n p block).mapBlockIndex.find h =
      if h = block.hash then some (Kernel.newBlockIndex par n.mapBlockIndex block)
      else n.mapBlockIndex.find h :=
  Dict.find_insert_of_none _ hb.new h

theorem getBlockHash_newBlockIndex (hb : Fresh cp n block p) :
    (Kernel.newBlockIndex par n.mapBlockIndex block).getBlockHash = block.hash := by
  obtain ⟨x, hx, hhash, -⟩ := newBlockIndex_fresh par hb
  rw [hx]
  exact hhash

theorem ne_newBlockIndex (hn : Stored nBits n) (hb : Fresh cp n block p) {h : Uint256}
    {x : CBlockIndex} (hx : n.mapBlockIndex.find h = some x) :
    x ≠ Kernel.newBlockIndex par n.mapBlockIndex block := by
  rintro rfl
  have hhash := hn.hash h _ hx
  rw [getBlockHash_newBlockIndex _ hb] at hhash
  rw [← hhash, hb.new] at hx
  cases hx

theorem received_entry_known (hn : Stored nBits n) (hb : Fresh cp n block p) {h : Uint256}
    {x : CBlockIndex} (hx : n.mapBlockIndex.find h = some x) :
    (received par n p block).entry x = n.entry x :=
  Function.update_of_ne (ne_newBlockIndex _ hn hb hx) _ _

theorem received_entry_new :
    (received par n p block).entry (Kernel.newBlockIndex par n.mapBlockIndex block) =
      completeEntry n p block :=
  Function.update_self _ _ _

/-- Of two chains of equal work the one that was seen first is better. -/
theorem received_workLess (hn : AtRest nBits n t) (hb : Fresh cp n block p) :
    (received par n p block).workLess (Kernel.newBlockIndex par n.mapBlockIndex block) t = true ↔
      nChainWork (Kernel.newBlockIndex par n.mapBlockIndex block) ≤ nChainWork t := by
  have hseq := (hn.complete _ t hn.tip_known).2.2
  simp only [Node.workLess, received_entry_new _,
    received_entry_known _ hn.toStored hb hn.tip_known, completeEntry]
  split_ifs <;> simp <;> omega

theorem stored_received (hn : Stored nBits n) (hb : Fresh cp n block p)
    (hbits : block.nBits = nBits) : Stored nBits (received par n p block) := by
  obtain ⟨x, hx, hhash, hxbits⟩ := newBlockIndex_fresh par hb
  have hnew := find_received par hb
  refine ⟨fun h b hfind => ?_, fun h b hfind y hy => ?_, fun h b hfind => ?_,
    fun h b hfind => ?_⟩ <;> rw [hnew] at hfind <;> split at hfind
  · next he =>
    cases hfind
    rw [he, getBlockHash_newBlockIndex _ hb]
  · exact hn.hash h b hfind
  · next he =>
    cases hfind
    rw [hx] at hy
    rcases Lineage.le_child.mp hy with rfl | hyp
    · rw [← hx, getBlockHash_newBlockIndex _ hb, hnew, if_pos rfl]
    · have hyfind := hn.line _ p hb.prev y hyp
      rw [hnew, if_neg fun hyb => by rw [hyb, hb.new] at hyfind; cases hyfind]
      exact hyfind
  · have hyfind := hn.line h b hfind y hy
    rw [hnew, if_neg fun hyb => by rw [hyb, hb.new] at hyfind; cases hyfind]
    exact hyfind
  · cases hfind
    rw [hx]
    exact hxbits.trans hbits
  · exact hn.bits h b hfind
  · cases hfind
    have htx := (hn.complete _ p hb.prev).2.1
    simp only [unusable, received_entry_new _]
    refine ⟨rfl, ?_, Nat.lt_succ_self _⟩
    simp only [completeEntry]
    omega
  · rw [unusable, received_entry_known _ hn hb hfind]
    obtain ⟨husable, htx, hseq⟩ := hn.complete h b hfind
    exact ⟨husable, htx, Nat.lt_succ_of_lt hseq⟩

theorem bestCandidate_singleton {m : Node} {b : CBlockIndex}
    (h : m.setBlockIndexCandidates = [b]) : m.bestCandidate = some b := by
  rw [Node.bestCandidate, h]
  rfl

theorem usable_of_stored (hn : Stored nBits n) {h : Uint256} {b : CBlockIndex}
    (hb : n.mapBlockIndex.find h = some b) : ∀ x ≤ b, unusable n x = false :=
  fun x hx => (hn.complete _ x (hn.line h b hb x hx)).1

/-- A node at rest has nothing to do. -/
theorem activateBestChain_atRest (hn : AtRest nBits n t) (orc : Blocks) (rounds : ℕ) :
    activateBestChain orc (rounds + 1) n = (⟨n, []⟩, some .ok) := by
  have hfind := findMostWorkChain_eq (bestCandidate_singleton hn.candidates)
    (usable_of_stored hn.toStored hn.tip_known)
  simp only [activateBestChain, activateLoop, hfind, hn.tip, if_true]

/-- A block with no more work than the tip is stored, and nothing else happens. -/
theorem processNewBlock_beside (hn : AtRest nBits n t) (hb : Fresh cp n block p)
    (hbits : block.nBits = nBits) (rounds : ℕ)
    (hwork : nChainWork (Kernel.newBlockIndex par n.mapBlockIndex block) ≤ nChainWork t) :
    processNewBlock par cp n ⟨block, passing, connecting, rounds + 1⟩ =
        ⟨received par n p block, []⟩ ∧
      AtRest nBits (received par n p block) t := by
  have hrest : AtRest nBits (received par n p block) t := by
    refine ⟨stored_received _ hn.toStored hb hbits, hn.tip, ?_, hn.candidates, hn.unlinked⟩
    rw [find_received _ hb, if_neg fun he => ?_]
    · exact hn.tip_known
    · have := hn.tip_known
      rw [he, hb.new] at this
      cases this
  refine ⟨?_, hrest⟩
  simp only [processNewBlock, acceptBlock_fresh _ hn hb,
    if_pos ((received_workLess _ hn hb).mpr hwork), activateBestChain_atRest hrest]

/-- A block with more work than the tip is the best candidate once it is stored. -/
theorem acceptBlock_better (hn : AtRest nBits n t) (hb : Fresh cp n block p)
    (hbits : block.nBits = nBits)
    (hwork : nChainWork t < nChainWork (Kernel.newBlockIndex par n.mapBlockIndex block)) :
    ∃ n', acceptBlock par cp passing n block = (n', true) ∧
      n' = { received par n p block with
        setBlockIndexCandidates := [Kernel.newBlockIndex par n.mapBlockIndex block, t] } ∧
      findMostWorkChain n' = (n', some (Kernel.newBlockIndex par n.mapBlockIndex block)) := by
  generalize hbdef : Kernel.newBlockIndex par n.mapBlockIndex block = b at hwork
  have hbt : b ≠ t := by
    rintro rfl
    exact Nat.lt_irrefl _ hwork
  have hstored := stored_received par hn.toStored hb hbits
  have hfind : (received par n p block).mapBlockIndex.find block.hash = some b := by
    rw [find_received _ hb, if_pos rfl, hbdef]
  have hnot : ¬(received par n p block).workLess b t = true := by
    rw [← hbdef, received_workLess _ hn hb, hbdef]
    omega
  have hinsert : (received par n p block).insertCandidate b =
      { received par n p block with setBlockIndexCandidates := [b, t] } := by
    have hcand : (received par n p block).setBlockIndexCandidates = [t] := hn.candidates
    rw [Node.insertCandidate, hcand, if_neg (by simpa using hbt)]
  refine ⟨_, ?_, rfl, findMostWorkChain_eq ?_ (usable_of_stored hstored hfind)⟩
  · rw [acceptBlock_fresh _ hn hb, hbdef, if_neg hnot, hinsert]
  · -- the new block has the higher rank of the two candidates
    have hless : ({ received par n p block with setBlockIndexCandidates := [b, t] } : Node).rank t <
        ({ received par n p block with setBlockIndexCandidates := [b, t] } : Node).rank b :=
      Node.workLess_iff.mp (by simp [Node.workLess, Nat.not_lt.mpr hwork.le, hwork])
    simp only [Node.bestCandidate, List.argmax_cons]
    exact if_neg (lt_asymm hless)

/-- A block over the tip becomes the tip. -/
theorem processNewBlock_extend (hn : AtRest nBits n t) (hb : Fresh cp n block t)
    (hbits : block.nBits = nBits) (hproof : 0 < (getBlockProof nBits).toNat) (rounds : ℕ) :
    ∃ n', step par cp n ⟨block, passing, connecting, rounds + 1⟩ = n' ∧
      n'.mapBlockIndex = (received par n t block).mapBlockIndex ∧
      AtRest nBits n' (Kernel.newBlockIndex par n.mapBlockIndex block) := by
  obtain ⟨x, hx, -, hxbits⟩ := newBlockIndex_fresh par hb
  have hwork : nChainWork t < nChainWork (Kernel.newBlockIndex par n.mapBlockIndex block) := by
    rw [hx, nChainWork, hxbits, hbits]
    omega
  obtain ⟨n', haccept, hn', hfind⟩ := acceptBlock_better par hn hb hbits hwork
  have hstored := stored_received par hn.toStored hb hbits
  have hnew := find_received par hb block.hash
  rw [if_pos rfl] at hnew
  have hhash := getBlockHash_newBlockIndex par hb
  generalize Kernel.newBlockIndex par n.mapBlockIndex block = b at *
  have htb : t ≤ b := hx ▸ Lineage.parent_le t x
  have htip : n'.tip = some t := hn' ▸ hn.tip
  have hfork : n'.chainActive.findFork b = some t := by
    obtain ⟨f, hf⟩ := CChain.exists_findFork htip le_rfl htb
    obtain ⟨hft, -, hmax⟩ := CChain.findFork_eq_some htip hf
    rw [hf, le_antisymm hft (hmax t le_rfl htb)]
  have hconnect : toConnect (some t) b = [b] := by
    rw [hx]
    simp [toConnect]
  have hloop (a : Activation) : disconnectLoop connecting (some t) t a = (a, .ok) := by
    cases t <;> simp [disconnectLoop]
  have htb' : t ≠ b := by
    rintro rfl
    exact Nat.lt_irrefl _ hwork
  refine ⟨pruneBlockIndexCandidates (n'.setTip (some b)), ?_, ?_, ?_⟩
  · have hstep : activateBestChainStep connecting b ⟨n', []⟩ =
        (⟨pruneBlockIndexCandidates (n'.setTip (some b)), []⟩, .ok) := by
      have hb' : connecting.connectBlock b = .connected := rfl
      simp only [activateBestChainStep, htip, hfork, hloop, hconnect, connectLoop, hb']
      simp [hwork]
    have htip' : (pruneBlockIndexCandidates (n'.setTip (some b))).tip = some b :=
      Node.tip_setTip n' (some b)
    simp only [step, processNewBlock, haccept, activateBestChain, activateLoop, hfind, htip,
      Option.some.injEq, htb', if_false, hstep, htip', if_true]
  · rw [hn']
    rfl
  · have hcand : (pruneBlockIndexCandidates (n'.setTip (some b))).setBlockIndexCandidates =
        [b] := by
      have hless : (n'.setTip (some b)).workLess t b = true := by
        simp [Node.workLess, Nat.not_lt.mpr hwork.le, hwork]
      have hself : (n'.setTip (some b)).workLess b b = false := by simp [Node.workLess]
      have hc : (n'.setTip (some b)).setBlockIndexCandidates = [b, t] := by
        rw [hn']
        rfl
      simp only [pruneBlockIndexCandidates, hc, Node.tip_setTip, List.filter, hless, hself,
        Bool.not_true, Bool.not_false]
    refine ⟨?_, Node.tip_setTip n' (some b), ?_, hcand, ?_⟩
    · rw [hn']
      exact ⟨hstored.hash, hstored.line, hstored.bits, hstored.complete⟩
    · rw [hn', hhash]
      exact hnew
    · rw [hn']
      exact hn.unlinked

theorem le_length_filter_branch {t : CBlockIndex} {p : CBlockIndex → Bool} {f : CBlockIndex}
    (hft : f ≤ t) (hp : ∀ b, f < b → b ≤ t → p b = true) :
    t.height - f.height ≤ (t.branch.filter p).length := by
  have hdrop : (t.branch.drop (f.height + 1)).filter p = t.branch.drop (f.height + 1) := by
    refine List.filter_eq_self.mpr fun b hb => ?_
    obtain ⟨hfb, hbt⟩ := (mem_toConnect hft).mp hb
    exact hp b hfb hbt
  have hsplit := congrArg (List.filter p) (List.take_append_drop (f.height + 1) t.branch)
  rw [List.filter_append, hdrop] at hsplit
  rw [← hsplit, List.length_append, List.length_drop, Lineage.length_branch]
  omega

/-- A block over the tip leaves no deep fork. -/
theorem shallowArrival_extend (hn : AtRest nBits n t) (hb : Fresh cp n block t)
    (hbits : block.nBits = nBits) (hproof : 0 < (getBlockProof nBits).toNat) (orc : Blocks)
    (rounds : ℕ) : ShallowArrival par cp n ⟨block, passing, orc, rounds⟩ := by
  intro _
  obtain ⟨x, hx, -, hxbits⟩ := newBlockIndex_fresh par hb
  have hwork : nChainWork t < nChainWork (Kernel.newBlockIndex par n.mapBlockIndex block) := by
    rw [hx, nChainWork, hxbits, hbits]
    omega
  obtain ⟨n', haccept, hn', -⟩ := acceptBlock_better par hn hb hbits hwork
  simp only [haccept]
  intro t' ht' c hc hct _
  have htip : n'.tip = some t := hn' ▸ hn.tip
  obtain rfl : t = t' := Option.some.inj (htip.symm.trans ht')
  rw [hn'] at hc
  have hcb := (List.mem_cons.mp hc).resolve_right fun h => hct (List.mem_singleton.mp h)
  have htc : t ≤ c := hcb ▸ hx ▸ Lineage.parent_le t x
  obtain ⟨f, hf⟩ := CChain.exists_findFork ht' le_rfl htc
  have htf := (CChain.findFork_eq_some ht' hf).2.2 t le_rfl htc
  exact ⟨f, hf, (Lineage.height_mono htf).trans (Nat.le_add_right _ _)⟩

/-- A block with more work makes the node take off its chain down to the fork. -/
theorem takenOff_better (hn : AtRest nBits n t) (hb : Fresh cp n block p)
    (hbits : block.nBits = nBits) {f : CBlockIndex} (rounds : ℕ)
    (hwork : nChainWork t < nChainWork (Kernel.newBlockIndex par n.mapBlockIndex block))
    (hfork : n.chainActive.findFork (Kernel.newBlockIndex par n.mapBlockIndex block) = some f) :
    t.height - f.height ≤
      (takenOff n (processNewBlock par cp n
        ⟨block, passing, connecting, rounds + 1⟩).disconnected).length := by
  obtain ⟨n', haccept, hn', hfind⟩ := acceptBlock_better par hn hb hbits hwork
  generalize Kernel.newBlockIndex par n.mapBlockIndex block = b at *
  have htip : n'.tip = some t := hn' ▸ hn.tip
  have hfork' : n'.chainActive.findFork b = some f := hn' ▸ hfork
  obtain ⟨hft, hfb, -⟩ := CChain.findFork_eq_some hn.tip hfork
  have htb : t ≠ b := by
    rintro rfl
    exact Nat.lt_irrefl _ hwork
  have hdisc : ∀ x, connecting.disconnectBlock x = true := fun _ => rfl
  obtain ⟨d, hd, hall⟩ := disconnectLoop_all hdisc hft ⟨n', []⟩
  have hlog : ∀ x ∈ d.disconnected, x ∈ (processNewBlock par cp n
      ⟨block, passing, connecting, rounds + 1⟩).disconnected := by
    simp only [processNewBlock, haccept, activateBestChain, activateLoop, hfind, htip,
      Option.some.injEq, htb, if_false]
    generalize hstep : activateBestChainStep connecting b ⟨n', []⟩ = e
    obtain ⟨a, s⟩ := e
    have ha : a.disconnected = d.disconnected := by
      simp only [activateBestChainStep, htip, hfork', hd] at hstep
      cases hstep
      rfl
    intro x hx
    rw [← ha] at hx
    cases s with
    | ok =>
      simp only
      split
      · exact hx
      · exact activateLoop_log rfl x hx
    | failed => exact hx
    | noReturn => exact hx
  have hchain : n.chainActive.vChain = t.branch := by
    rw [n.chainActive.eq_setTip, show n.chainActive.tip = some t from hn.tip]
    rfl
  rw [takenOff, hchain]
  refine le_length_filter_branch hft fun x hfx hxt => ?_
  simpa using hlog x (hall x hfx hxt)

/-- With one difficulty throughout, work counts blocks. -/
theorem nChainWork_of_bits {b : CBlockIndex} (h : ∀ x ≤ b, x.label.nBits = nBits) :
    nChainWork b = (b.height + 1) * (getBlockProof nBits).toNat := by
  induction b with
  | root a =>
    have := h _ le_rfl
    simp only [Lineage.label] at this
    simp [nChainWork, this]
  | child p a ih =>
    have ha := h _ le_rfl
    simp only [Lineage.label] at ha
    rw [nChainWork, ih fun x hx => h x (hx.trans (Lineage.parent_le p a)), ha,
      Lineage.height_child, Nat.succ_mul (p.height + 1)]

theorem nChainWork_stored (hn : Stored nBits n) {h : Uint256} {b : CBlockIndex}
    (hb : n.mapBlockIndex.find h = some b) :
    nChainWork b = (b.height + 1) * (getBlockProof nBits).toNat :=
  nChainWork_of_bits fun x hx => hn.bits _ x (hn.line h b hb x hx)

theorem nChainWork_new (hn : Stored nBits n) (hb : Fresh cp n block p)
    (hbits : block.nBits = nBits) :
    nChainWork (Kernel.newBlockIndex par n.mapBlockIndex block) =
      (p.height + 2) * (getBlockProof nBits).toNat := by
  have hfind := find_received par hb block.hash
  rw [if_pos rfl] at hfind
  rw [nChainWork_stored (stored_received _ hn hb hbits) hfind]
  obtain ⟨x, hx, -, -⟩ := newBlockIndex_fresh par hb
  rw [hx]
  rfl

end Accept

/-! The node starts without blocks. -/

def Node.start (address : CBlockIndex → ℕ) : Node where
  mapBlockIndex := Dict.empty
  entry := fun _ => {}
  address := address
  chainActive := CChain.empty
  setBlockIndexCandidates := []
  mapBlocksUnlinked := []
  nBlockSequenceId := 1

/-- The node that stored its genesis block. -/
def genesisNode (address : CBlockIndex → ℕ) (block : CBlock) (g : BlockInfo) : Node :=
  { Node.start address with
    mapBlockIndex := Dict.empty.insert block.hash (.root g)
    entry := Function.update (fun _ => {}) (.root g)
      ⟨block.vtx.length, 0 + block.vtx.length, 1, true, false, false⟩
    setBlockIndexCandidates := [.root g]
    nBlockSequenceId := 2 }

section Genesis

variable {par : Kernel.Params} {cp : ChainParams} {block : CBlock} {g : BlockInfo}
  {address : CBlockIndex → ℕ}

theorem acceptBlock_genesis (hg : Kernel.newBlockIndex par Dict.empty block = .root g)
    (hgenesis : block.hash = cp.hashGenesisBlock) :
    acceptBlock par cp passing (Node.start address) block =
      (genesisNode address block g, true) := by
  have hheader : acceptBlockHeader par cp passing (Node.start address) block =
      ({ (Node.start address).modifyEntry (.root g) (fun _ => {}) with
        mapBlockIndex := Dict.empty.insert block.hash (.root g) }, some (.root g)) := by
    simp only [acceptBlockHeader, Node.start, Dict.find_empty, if_pos hgenesis, Node.addBlock,
      Kernel.addToBlockIndex, hg]
  rw [acceptBlock, if_pos (by rw [checkPrev, if_pos hgenesis]), hheader]
  simp [storeBlock, Node.modifyEntry, Node.start, passing, receivedBlockTransactions,
    Lineage.parent?, linkQueue, linkBlock, nChainTxBelow, Node.tip, CChain.tip, CChain.empty,
    Node.insertCandidate, genesisNode]

theorem activateBestChain_genesis (rounds : ℕ) :
    activateBestChain connecting (rounds + 1) (genesisNode address block g) =
      (⟨(genesisNode address block g).setTip (some (.root g)), []⟩, some .ok) := by
  have hfind : findMostWorkChain (genesisNode address block g) =
      (genesisNode address block g, some (.root g)) := by
    refine findMostWorkChain_eq rfl fun x hx => ?_
    rw [Lineage.le_root.mp hx]
    simp [unusable, genesisNode, Entry.failed]
  have hself : ((genesisNode address block g).setTip (some (.root g))).workLess (.root g)
      (.root g) = false := by
    simp [Node.workLess]
  have hcand : ((genesisNode address block g).setTip (some (.root g))).setBlockIndexCandidates =
      [.root g] := rfl
  have hprune : pruneBlockIndexCandidates ((genesisNode address block g).setTip (some (.root g))) =
      (genesisNode address block g).setTip (some (.root g)) := by
    simp only [pruneBlockIndexCandidates, hcand, Node.tip_setTip, List.filter, hself,
      Bool.not_false]
    rfl
  have htip : (genesisNode address block g).tip = none := rfl
  have hfork : (genesisNode address block g).chainActive.findFork (.root g) = none := rfl
  have hconnect : connecting.connectBlock (.root g) = .connected := rfl
  have hstep : activateBestChainStep connecting (.root g) ⟨genesisNode address block g, []⟩ =
      (⟨(genesisNode address block g).setTip (some (.root g)), []⟩, .ok) := by
    simp only [activateBestChainStep, htip, hfork, toConnect, Lineage.branch_root, connectLoop,
      hconnect, hprune]
    rfl
  simp only [activateBestChain, activateLoop, hfind, htip, hstep, Node.tip_setTip, if_true]
  rfl

theorem find_genesisNode (address : CBlockIndex → ℕ) {h : Uint256} {b : CBlockIndex} :
    (genesisNode address block g).mapBlockIndex.find h = some b ↔
      b = .root g ∧ h = block.hash := by
  have hfind := Dict.find_insert_of_none (.root g : CBlockIndex) (Dict.find_empty block.hash) h
  rw [show (genesisNode address block g).mapBlockIndex = Dict.empty.insert block.hash (.root g)
    from rfl, hfind]
  split
  · next he => simp [he, eq_comm]
  · next he => simp [he]

theorem atRest_genesisNode (hhash : g.hash = block.hash) (hvtx : block.vtx ≠ []) :
    AtRest g.nBits ((genesisNode address block g).setTip (some (.root g))) (.root g) := by
  have hlen : block.vtx.length ≠ 0 := by simpa using hvtx
  have hroot : CBlockIndex.getBlockHash (.root g) = block.hash := hhash
  refine ⟨⟨fun h b hb => ?_, fun h b hb x hx => ?_, fun h b hb => ?_, fun h b hb => ?_⟩,
    Node.tip_setTip _ _, (find_genesisNode address).mpr ⟨rfl, hroot⟩, rfl, rfl⟩ <;>
    obtain ⟨rfl, rfl⟩ := (find_genesisNode address).mp hb
  · exact hhash
  · rw [Lineage.le_root.mp hx]
    exact (find_genesisNode address).mpr ⟨rfl, hroot⟩
  · rfl
  · simp [unusable, Node.setTip, genesisNode, Entry.failed, hlen]

/-- The genesis block becomes the tip of an empty node. -/
theorem step_genesis (par : Kernel.Params) (address : CBlockIndex → ℕ)
    (hgenesis : block.hash = cp.hashGenesisBlock) (hvtx : block.vtx ≠ []) (rounds : ℕ) :
    ∃ g : BlockInfo, g.hash = block.hash ∧
      AtRest block.nBits
        (step par cp (Node.start address) ⟨block, passing, connecting, rounds + 1⟩) (.root g) ∧
      ∀ h b, (step par cp (Node.start address)
          ⟨block, passing, connecting, rounds + 1⟩).mapBlockIndex.find h = some b →
        h = block.hash := by
  obtain ⟨g, hg, hhash, hbits⟩ : ∃ g : BlockInfo,
      Kernel.newBlockIndex par Dict.empty block = .root g ∧ g.hash = block.hash ∧
        g.nBits = block.nBits := by
    simp only [Kernel.newBlockIndex, Dict.find_empty]
    exact ⟨_, rfl, rfl, rfl⟩
  have hstep : step par cp (Node.start address) ⟨block, passing, connecting, rounds + 1⟩ =
      (genesisNode address block g).setTip (some (.root g)) := by
    simp only [step, processNewBlock, acceptBlock_genesis hg hgenesis,
      activateBestChain_genesis]
  rw [hstep, ← hbits]
  exact ⟨g, hhash, atRest_genesisNode hhash hvtx,
    fun h b hb => ((find_genesisNode address).mp hb).2⟩

end Genesis

/-! A branch from the genesis block that is grown beside the active chain. The blocks of the
active chain have the hashes 2, 3, ..., those of the branch 1001, 1002, ...; all have the same
difficulty. -/

def minedBlock (hash prev : ℕ) : CBlock where
  hash := BitVec.ofNat 256 hash
  hashPrevBlock := BitVec.ofNat 256 prev
  nTime := BitVec.ofNat 32 (60 * hash)
  nBits := 0x1e0fffff
  vtx := [⟨BitVec.ofNat 256 (10000 + hash), 1, [⟨COutPoint.null, [], BitVec.allOnes 32⟩],
    [⟨100 * coin, [], -10⟩], 0⟩]

def mined (hash prev : ℕ) : Arrival := ⟨minedBlock hash prev, passing, connecting, 1⟩

/-- The block at height `j + 1` of the branch. -/
def minedBeside (j : ℕ) : Arrival := mined (1001 + j) (if j = 0 then 1 else 1000 + j)

def mainnetParams : ChainParams := ⟨1, 100⟩

/-- The active chain ends in `t` at height `k`, the branch in `s` at height `j`, and they have
only the genesis block in common. -/
structure Grown (n : Node) (t s : CBlockIndex) (k j : ℕ) : Prop where
  rest : AtRest 0x1e0fffff n t
  t_hash : t.getBlockHash = BitVec.ofNat 256 (k + 1)
  t_height : t.height = k
  s_find : n.mapBlockIndex.find (BitVec.ofNat 256 (if j = 0 then 1 else 1000 + j)) = some s
  s_height : s.height = j
  fork : ∀ x, x ≤ t → x ≤ s → x.height = 0
  root : ∃ g, g ≤ t ∧ g ≤ s
  known : ∀ h b, n.mapBlockIndex.find h = some b →
    h.toNat ≤ k + 1 ∨ (1001 ≤ h.toNat ∧ h.toNat ≤ 1000 + j)

section Growth

variable (par : Kernel.Params) {n : Node} {t s : CBlockIndex} {k j : ℕ}

theorem height_of_tip (ht : n.tip = some t) : n.chainActive.height = t.height := by
  rw [n.chainActive.eq_setTip, show n.chainActive.tip = some t from ht]
  simp [CChain.height, CChain.setTip]

theorem Grown.fresh_main (h : Grown n t s k j) (hk : k < 900) :
    Fresh mainnetParams n (minedBlock (k + 2) (k + 1)) t := by
  refine ⟨?_, ?_, ?_, ?_, List.cons_ne_nil _ _⟩
  · cases hfind : n.mapBlockIndex.find (minedBlock (k + 2) (k + 1)).hash with
    | none => rfl
    | some b =>
      have := h.known _ b hfind
      simp only [minedBlock, BitVec.toNat_ofNat] at this
      omega
  · intro he
    have := congrArg BitVec.toNat he
    simp [minedBlock, mainnetParams] at this
    omega
  · have := h.rest.tip_known
    rwa [h.t_hash] at this
  · rw [height_of_tip h.rest.tip]
    simp only [mainnetParams]
    omega

theorem Grown.fresh_beside (h : Grown n t s k j) (hj : j < 900) (hdepth : k ≤ j + 100) :
    Fresh mainnetParams n (minedBeside j).block s := by
  refine ⟨?_, ?_, h.s_find, ?_, List.cons_ne_nil _ _⟩
  · cases hfind : n.mapBlockIndex.find (minedBeside j).block.hash with
    | none => rfl
    | some b =>
      have := h.known _ b hfind
      simp only [minedBeside, mined, minedBlock, BitVec.toNat_ofNat] at this
      omega
  · intro he
    have := congrArg BitVec.toNat he
    simp [minedBeside, mined, minedBlock, mainnetParams] at this
    omega
  · rw [height_of_tip h.rest.tip, h.t_height, h.s_height]
    simp only [mainnetParams]
    omega

theorem not_le_of_fresh {nBits : BitVec 32} {cp : ChainParams} {block : CBlock}
    {p b : CBlockIndex} (hn : Stored nBits n) (hb : Fresh cp n block p) {h : Uint256}
    (hfind : n.mapBlockIndex.find h = some b) :
    ¬Kernel.newBlockIndex par n.mapBlockIndex block ≤ b := fun hle =>
  ne_newBlockIndex _ hn hb (hn.line h b hfind _ hle) rfl

theorem Grown.main (h : Grown n t s k j) (hk : k < 900) :
    ∃ t', Grown (step par mainnetParams n (mined (k + 2) (k + 1))) t' s (k + 1) j := by
  have hfresh := h.fresh_main hk
  obtain ⟨n', hstep, hmap, hrest⟩ :=
    processNewBlock_extend par h.rest hfresh rfl (by decide) 0
  have hfind := find_received par hfresh
  rw [show step par mainnetParams n (mined (k + 2) (k + 1)) = n' from hstep]
  obtain ⟨x, hx, -, -⟩ := newBlockIndex_fresh par hfresh
  refine ⟨_, hrest, getBlockHash_newBlockIndex _ hfresh, ?_, ?_, h.s_height, ?_, ?_, ?_⟩
  · rw [hx, Lineage.height_child, h.t_height]
  · rw [hmap, hfind, if_neg fun he => ?_]
    · exact h.s_find
    · have := h.s_find
      rw [he, hfresh.new] at this
      cases this
  · intro y hy hys
    rw [hx] at hy
    rcases Lineage.le_child.mp hy with rfl | hyt
    · exact absurd (hx ▸ hys) (not_le_of_fresh _ h.rest.toStored hfresh h.s_find)
    · exact h.fork y hyt hys
  · obtain ⟨g, hgt, hgs⟩ := h.root
    exact ⟨g, hgt.trans (hx ▸ Lineage.parent_le t x), hgs⟩
  · intro y b hb
    rw [hmap, hfind] at hb
    split at hb
    · next he =>
      subst he
      left
      simp only [minedBlock, BitVec.toNat_ofNat]
      omega
    · have := h.known y b hb
      omega

theorem Grown.work_beside (h : Grown n t s k j) (hj : j < 900) (hdepth : k ≤ j + 100) :
    nChainWork (Kernel.newBlockIndex par n.mapBlockIndex (minedBeside j).block) =
        (j + 2) * (getBlockProof 0x1e0fffff).toNat ∧
      nChainWork t = (k + 1) * (getBlockProof 0x1e0fffff).toNat := by
  refine ⟨?_, ?_⟩
  · rw [nChainWork_new _ h.rest.toStored (h.fresh_beside hj hdepth) rfl, h.s_height]
  · rw [nChainWork_stored h.rest.toStored h.rest.tip_known, h.t_height]

theorem Grown.beside (h : Grown n t s k j) (hj : j < 900) (hdepth : k ≤ j + 100)
    (hlow : j < k) :
    ∃ s', Grown (step par mainnetParams n (minedBeside j)) t s' k (j + 1) := by
  have hfresh := h.fresh_beside hj hdepth
  obtain ⟨hnew, ht⟩ := h.work_beside par hj hdepth
  have hwork : nChainWork (Kernel.newBlockIndex par n.mapBlockIndex (minedBeside j).block) ≤
      nChainWork t := by
    rw [hnew, ht]
    exact Nat.mul_le_mul_right _ (by omega)
  obtain ⟨hprocess, hrest⟩ := processNewBlock_beside _ h.rest hfresh rfl 0 hwork
  have hfind := find_received par hfresh
  have hstep : step par mainnetParams n (minedBeside j) =
      received par n s (minedBeside j).block := congrArg Activation.node hprocess
  rw [hstep]
  obtain ⟨x, hx, -, -⟩ := newBlockIndex_fresh par hfresh
  refine ⟨_, hrest, h.t_hash, h.t_height, (hfind _).trans (if_pos ?_), ?_, ?_, ?_, ?_⟩
  · simp only [minedBeside, mined, minedBlock, if_neg (Nat.succ_ne_zero j)]
    congr 1
    omega
  · rw [hx, Lineage.height_child, h.s_height]
  · intro y hyt hy
    rw [hx] at hy
    rcases Lineage.le_child.mp hy with rfl | hys
    · exact absurd (hx ▸ hyt) (not_le_of_fresh _ h.rest.toStored hfresh h.rest.tip_known)
    · exact h.fork y hyt hys
  · obtain ⟨g, hgt, hgs⟩ := h.root
    exact ⟨g, hgt, hgs.trans (hx ▸ Lineage.parent_le s x)⟩
  · intro y b hb
    rw [hfind] at hb
    split at hb
    · next he =>
      subst he
      right
      simp only [minedBeside, mined, minedBlock, BitVec.toNat_ofNat]
      omega
    · have := h.known y b hb
      omega

/-- The block that makes the branch the longer chain. -/
theorem Grown.overtake (h : Grown n t s k k) (hk : k < 900) :
    k ≤ (takenOff n (processNewBlock par mainnetParams n (minedBeside k)).disconnected).length := by
  have hfresh := h.fresh_beside hk (by omega)
  obtain ⟨hnew, ht⟩ := h.work_beside par hk (by omega)
  have hwork : nChainWork t <
      nChainWork (Kernel.newBlockIndex par n.mapBlockIndex (minedBeside k).block) := by
    rw [hnew, ht]
    exact Nat.mul_lt_mul_of_pos_right (by omega) (by decide)
  obtain ⟨x, hx, -, -⟩ := newBlockIndex_fresh par hfresh
  obtain ⟨g, hgt, hgs⟩ := h.root
  obtain ⟨f, hf⟩ := CChain.exists_findFork h.rest.tip hgt
    (hgs.trans (hx ▸ Lineage.parent_le s x))
  obtain ⟨hft, hfnew, -⟩ := CChain.findFork_eq_some h.rest.tip hf
  have hheight : f.height = 0 := by
    rw [hx] at hfnew
    rcases Lineage.le_child.mp hfnew with rfl | hfs
    · exact absurd (hx ▸ hft) (not_le_of_fresh _ h.rest.toStored hfresh h.rest.tip_known)
    · exact h.fork f hft hfs
  have := takenOff_better _ h.rest hfresh rfl 0 hwork hf
  rw [h.t_height, hheight] at this
  exact this

theorem grown_genesis (par : Kernel.Params) (address : CBlockIndex → ℕ) :
    ∃ g, Grown (step par mainnetParams (Node.start address) (mined 1 0)) g g 0 0 := by
  obtain ⟨g, hhash, hrest, hknown⟩ := step_genesis par address
    (show (minedBlock 1 0).hash = mainnetParams.hashGenesisBlock from rfl) (List.cons_ne_nil _ _) 0
  refine ⟨.root g, hrest, hhash, rfl, ?_, rfl, ?_, ⟨.root g, le_rfl, le_rfl⟩, ?_⟩
  · have := hrest.tip_known
    rwa [show CBlockIndex.getBlockHash (.root g) = _ from hhash] at this
  · intro x hx _
    rw [Lineage.le_root.mp hx]
    rfl
  · intro h b hb
    rw [hknown h b hb]
    exact Or.inl (by decide)

/-- The next `m` blocks of the active chain. -/
def mainBlocks (k m : ℕ) : List Arrival :=
  (List.range m).map fun i => mined (k + i + 2) (k + i + 1)

/-- The next `m` blocks of the branch. -/
def besideBlocks (j m : ℕ) : List Arrival := (List.range m).map fun i => minedBeside (j + i)

theorem Grown.run_main (h : Grown n t s k j) {m : ℕ} (hm : k + m < 900) :
    ∃ t', Grown (Runs.run (step par mainnetParams) n (mainBlocks k m)) t' s (k + m) j := by
  induction m with
  | zero => exact ⟨t, h⟩
  | succ m ih =>
    obtain ⟨t', ht'⟩ := ih (by omega)
    obtain ⟨t'', ht''⟩ := ht'.main par (by omega)
    refine ⟨t'', ?_⟩
    rw [mainBlocks, List.range_succ, List.map_append, Runs.run_append]
    exact ht''

theorem Grown.run_beside (h : Grown n t s k j) {m : ℕ} (hk : k < 900) (hdepth : k ≤ j + 100)
    (hm : j + m ≤ k) :
    ∃ s', Grown (Runs.run (step par mainnetParams) n (besideBlocks j m)) t s' k (j + m) := by
  induction m with
  | zero => exact ⟨s, h⟩
  | succ m ih =>
    obtain ⟨s', hs'⟩ := ih (by omega)
    obtain ⟨s'', hs''⟩ := hs'.beside par (by omega) (by omega) (by omega)
    refine ⟨s'', ?_⟩
    rw [besideBlocks, List.range_succ, List.map_append, Runs.run_append]
    exact hs''

end Growth

/-- The branch starts when the active chain has height 100, the active chain gets one more
block, and then the branch grows until it has more work. -/
def deepReorg : List Arrival :=
  mined 1 0 :: mainBlocks 0 100 ++ besideBlocks 0 1 ++ mainBlocks 100 1 ++ besideBlocks 1 100

theorem grown_deepReorg (par : Kernel.Params) (address : CBlockIndex → ℕ) :
    ∃ t s, Grown (Runs.run (step par mainnetParams) (Node.start address) deepReorg) t s
      101 101 := by
  obtain ⟨g, h₀⟩ := grown_genesis par address
  obtain ⟨t₁, h₁⟩ := h₀.run_main par (m := 100) (by omega)
  obtain ⟨s₂, h₂⟩ := h₁.run_beside par (m := 1) (by omega) (by omega) (by omega)
  obtain ⟨t₃, h₃⟩ := h₂.run_main par (m := 1) (by omega)
  obtain ⟨s₄, h₄⟩ := h₃.run_beside par (m := 100) (by omega) (by omega) (by omega)
  refine ⟨t₃, s₄, ?_⟩
  simpa only [deepReorg, Runs.run_append, List.cons_append, Runs.run_cons] using h₄

theorem reorganisations_bounded_extending :
    Runs.Meets (step ⟨fun _ => 0, 0, 0⟩ mainnetParams)
      (BoundedReorg ⟨fun _ => 0, 0, 0⟩ mainnetParams) (Node.start fun _ => 0)
      [mined 1 0, mined 2 1] := by
  obtain ⟨g, hg⟩ := grown_genesis ⟨fun _ => 0, 0, 0⟩ fun _ => 0
  refine reorganisations_bounded ⟨fun _ t ht => ?_, ?_, trivial⟩
  · rw [show (acceptBlock _ mainnetParams (mined 1 0).checks (Node.start fun _ => 0)
      (mined 1 0).block).1 = _ from congrArg Prod.fst (acceptBlock_genesis rfl rfl)] at ht
    cases ht
  · exact shallowArrival_extend _ hg.rest (hg.fresh_main (by omega)) rfl (by decide) _ _

/-- Every header of the run passes the depth test, yet its last block takes 101 blocks off the
active chain. -/
theorem deep_reorganisation : ¬∃ par, ∀ address es,
    Runs.Meets (step par mainnetParams) (BoundedReorg par mainnetParams) (Node.start address)
      es := by
  rintro ⟨par, h⟩
  obtain ⟨t, s, hgrown⟩ := grown_deepReorg par fun _ => 0
  have hmeets := h (fun _ => 0) (deepReorg ++ [minedBeside 101])
  have hlast := (Runs.meets_append.mp hmeets).2.1
  have := hgrown.overtake par (by omega)
  simp only [BoundedReorg, mainnetParams] at hlast
  exact absurd (this.trans hlast) (by omega)

end Scrypta.Chainstate
