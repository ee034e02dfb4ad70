import Scrypta.Ancestors
import Scrypta.BlockIndexRuns

/-! What a node keeps for good, whatever it does next: an entry of the index stays where it is in
the tree and does not lose its data, and there is an active chain once there was one. -/

namespace Scrypta.BlockIndex

/-- The second node may be a later state of the first one. -/
structure Grown (n n' : Node) : Prop where
  entries : ∀ hash e, n.find hash = some e → ∃ e', n'.find hash = some e' ∧ e'.fixed = e.fixed ∧
    (e.hasData = true → e'.hasData = true)
  chain : n.chainActive ≠ [] → n'.chainActive ≠ []

section Steps

variable {par : Params} {proc : Process} {n₀ n n' : Node} {hash : Uint256} {e : Entry}

theorem Grown.refl (n : Node) : Grown n n := ⟨fun _ e he => ⟨e, he, rfl, id⟩, id⟩

theorem Grown.trans {n'' : Node} (h : Grown n n') (h' : Grown n' n'') : Grown n n'' := by
  refine ⟨fun hash e he => ?_, fun hne => h'.chain (h.chain hne)⟩
  obtain ⟨e', he', hfixed, hdata⟩ := h.entries hash e he
  obtain ⟨e'', he'', hfixed', hdata'⟩ := h'.entries hash e' he'
  exact ⟨e'', he'', hfixed'.trans hfixed, fun hd => hdata' (hdata hd)⟩

/-- An assignment that leaves the entry in its place and its data where it is. -/
theorem Grown.modify (h : Grown n₀ n) (hash : Uint256) (f : Entry → Entry)
    (hfixed : ∀ e, (f e).fixed = e.fixed) (hdata : ∀ e, e.hasData = true → (f e).hasData = true) :
    Grown n₀ (n.modify hash f) := by
  refine h.trans ⟨fun x ex hx => ?_, id⟩
  rw [Node.find_modify]
  split_ifs with hxh
  · rw [← hxh, hx]
    exact ⟨f ex, rfl, hfixed ex, hdata ex⟩
  · exact ⟨ex, hx, rfl, id⟩

theorem Grown.addStatus (h : Grown n₀ n) (hash : Uint256) (i : ℕ) :
    Grown n₀ (n.modify hash (·.addStatus (2 ^ i))) := by
  refine h.modify hash _ (fun _ => rfl) fun e hd => ?_
  rw [Entry.hasData_eq] at hd ⊢
  rw [Entry.testBit_addStatus, hd, Bool.true_or]

theorem Grown.linkBlock (h : Grown n₀ n) (hash : Uint256) :
    Grown n₀ (linkBlock proc n hash) := by
  have hmodify := h.modify hash (·.linked n.mapBlockIndex n.nBlockSequenceId) (fun _ => rfl)
    fun _ hd => hd
  unfold BlockIndex.linkBlock
  dsimp only
  split
  · exact ⟨hmodify.1, hmodify.2⟩
  · split_ifs
    · exact ⟨hmodify.1, hmodify.2⟩
    · exact ⟨hmodify.1, hmodify.2⟩

theorem Grown.linkQueue (k : ℕ) (h : Grown n₀ n) (queue : List Uint256) :
    Grown n₀ (linkQueue proc k queue n) := by
  induction k generalizing queue n with
  | zero => exact h
  | succ k ih =>
    cases queue with
    | nil => exact h
    | cons hash queue =>
      rw [BlockIndex.linkQueue]
      refine ih ?_ _
      have hlink : Grown n₀ (BlockIndex.linkBlock proc n hash) := h.linkBlock hash
      exact ⟨hlink.1, hlink.2⟩

theorem Grown.receivedBlockTransactions (h : Grown n₀ n) (block : CBlock) (hash : Uint256)
    (pos : DiskPos) : Grown n₀ (receivedBlockTransactions proc n block hash pos) := by
  have hmodify : Grown n₀ ((n.modify hash (·.received block pos)).insertDirty hash) := by
    have hreceived := h.modify hash (·.received block pos)
      (fun _ => Entry.fixed_received block pos) fun _ _ => Entry.hasData_received block pos
    exact ⟨hreceived.1, hreceived.2⟩
  unfold BlockIndex.receivedBlockTransactions
  dsimp only
  split
  · exact hmodify.linkQueue _ _
  · split_ifs
    · exact hmodify.linkQueue _ _
    · exact ⟨hmodify.1, hmodify.2⟩
    · exact hmodify

theorem Grown.addToBlockIndex (h : Grown n₀ n) (block : CBlock) (hashProofOfStake : Uint256)
    (hnew : n.find (hashOf par block) = none) :
    Grown n₀ (addToBlockIndex par proc n block hashProofOfStake) := by
  unfold BlockIndex.addToBlockIndex
  dsimp only
  generalize newEntry par proc n.mapBlockIndex block hashProofOfStake = e
  have hset : Grown n₀ { n with mapBlockIndex := n.mapBlockIndex.set (hashOf par block) e } :=
    h.trans ⟨fun x ex hx => ⟨ex, find_newEntry hnew e hx, rfl, id⟩, id⟩
  unfold Node.insertStake
  split_ifs
  · exact ⟨hset.1, hset.2⟩
  · exact ⟨hset.1, hset.2⟩

theorem Grown.storeBlock (h : Grown n₀ n) (block : CBlock) (hash : Uint256) (o : Checks) :
    Grown n₀ (storeBlock proc n block hash o) := by
  unfold BlockIndex.storeBlock
  split_ifs
  · exact h
  · have hfail := h.addStatus hash 5
    exact ⟨hfail.1, hfail.2⟩
  · exact h
  · cases o.position with
    | none => exact h
    | some pos => exact h.receivedBlockTransactions block hash pos

theorem Grown.acceptBlock (h : Grown n₀ n) (block : CBlock) (o : Checks) :
    Grown n₀ (acceptBlock par proc n block o) := by
  unfold BlockIndex.acceptBlock
  dsimp only
  cases checkPrev par n block o with
  | false => exact h
  | true =>
    rw [if_neg (by simp)]
    cases hfind : n.find (hashOf par block) with
    | some e =>
      dsimp only
      split_ifs
      · exact h
      · exact h.storeBlock block _ o
    | none =>
      dsimp only
      split_ifs
      · exact (h.addToBlockIndex block o.hashProofOfStake hfind).storeBlock block _ o
      · exact h

theorem Grown.markChain (h : Grown n₀ n) (younger : List Uint256) :
    Grown n₀ { n with mapBlockIndex := markChain n.mapBlockIndex younger } := by
  induction younger generalizing n with
  | nil => exact ⟨h.1, h.2⟩
  | cons y younger ih =>
    have hrest := ih (h.addStatus y 6)
    exact ⟨hrest.1, hrest.2⟩

theorem Grown.findMostWorkChain (h : Grown n₀ n) : Grown n₀ (findMostWorkChain proc n) := by
  have hloop (k : ℕ) (n : Node) (h : Grown n₀ n) : Grown n₀ (findMostWorkLoop proc k n) := by
    induction k generalizing n with
    | zero => exact h
    | succ k ih =>
      rw [findMostWorkLoop]
      split
      · exact h
      · split
        · exact h
        · refine ih _ ?_
          rename_i pindexTest _
          generalize List.takeWhile _ _ = younger
          have hmark := h.markChain younger
          unfold dropChain
          cases (n.find pindexTest).any Entry.failed with
          | true => exact ⟨hmark.1, hmark.2⟩
          | false => exact ⟨h.1, h.2⟩
  exact hloop _ n h

theorem lineOf_ne_nil (m : BlockMap) (hash : Uint256) : lineOf m hash ≠ [] := by
  unfold lineOf
  cases (m.find hash).elim 0 (·.nHeight) with
  | zero => exact List.cons_ne_nil _ _
  | succ k =>
    rw [line]
    cases parent m hash with
    | none => exact List.cons_ne_nil _ _
    | some p => exact List.cons_ne_nil _ _

theorem Grown.setTip (h : Grown n₀ n) (hash : Uint256) : Grown n₀ (setTip n hash) :=
  ⟨h.1, fun _ hnil => lineOf_ne_nil n.mapBlockIndex hash (List.reverse_eq_nil_iff.mp hnil)⟩

theorem Grown.writeBlockIndex (h : Grown n₀ n) (hash : Uint256) :
    Grown n₀ (writeBlockIndex par n hash) := by
  unfold BlockIndex.writeBlockIndex
  split
  · exact h
  · exact ⟨h.1, h.2⟩

theorem Grown.writeSums (h : Grown n₀ n) (hash : Uint256) (minted : CAmount) :
    Grown n₀ (writeSums par n hash minted) :=
  (h.modify hash (·.summed n.mapBlockIndex minted) (fun _ => rfl) fun _ hd => hd).writeBlockIndex
    hash

theorem Grown.raiseScripts (h : Grown n₀ n) (hash : Uint256) (nUndoPos : ℕ) :
    Grown n₀ (raiseScripts n hash nUndoPos) := by
  unfold BlockIndex.raiseScripts
  split_ifs
  · exact h
  · have hconnected := h.modify hash (·.connected nUndoPos)
      (fun e => by rw [← Entry.fixed_core, Entry.core_connected, Entry.fixed_core])
      fun e hd => by rw [← Entry.hasData_core, Entry.core_connected, Entry.hasData_core, hd]
    exact ⟨hconnected.1, hconnected.2⟩

theorem Grown.invalidBlockFound (h : Grown n₀ n) (hash : Uint256) :
    Grown n₀ (invalidBlockFound n hash) := by
  have hfail := h.addStatus hash 5
  exact ⟨hfail.1, hfail.2⟩

theorem Grown.connectTip (h : Grown n₀ n) (hash : Uint256) (c : Connection) :
    Grown n₀ (connectTip par proc n hash c) := by
  unfold BlockIndex.connectTip
  cases connectable n hash with
  | false => exact h
  | true =>
    rw [if_neg (by simp)]
    cases c with
    | refused minted blames =>
      cases minted with
      | none =>
        dsimp only [Option.elim_none]
        split_ifs
        · exact h.invalidBlockFound hash
        · exact h
      | some minted =>
        dsimp only [Option.elim_some]
        split_ifs
        · exact (h.writeSums hash minted).invalidBlockFound hash
        · exact h.writeSums hash minted
    | connected minted nUndoPos =>
      have hsums : Grown n₀ (BlockIndex.writeSums par n hash minted) := h.writeSums hash minted
      have htip := (hsums.raiseScripts hash nUndoPos).setTip hash
      exact ⟨htip.1, htip.2⟩
    | genesis =>
      have htip := h.setTip hash
      exact ⟨htip.1, htip.2⟩

theorem Grown.flushStateToDisk (h : Grown n₀ n) : Grown n₀ (flushStateToDisk par n) := by
  have hfold (l : List Uint256) (n : Node) (h : Grown n₀ n) :
      Grown n₀ (l.foldl (BlockIndex.writeBlockIndex par) n) := by
    induction l generalizing n with
    | nil => exact h
    | cons x l ih => exact ih _ (h.writeBlockIndex x)
  have hall := hfold n.setDirtyBlockIndex n h
  exact ⟨hall.1, hall.2⟩

theorem Grown.step (n : Node) (ev : Event) : Grown n (step par proc n ev) := by
  have h := Grown.refl n
  cases ev with
  | acceptBlock block o => exact h.acceptBlock block o
  | findMostWorkChain => exact h.findMostWorkChain
  | connectTip hash c => exact h.connectTip hash c
  | disconnectTip =>
    change Grown n (disconnectTip n)
    unfold disconnectTip
    split
    · exact h
    · exact h.setTip _
  | flushStateToDisk => exact h.flushStateToDisk

end Steps

section Received

variable {par : Params} {n n' : Node} {hash : Uint256} {e e' : Entry}

/-- With the number of its transactions a block has its data, and so have those below it. -/
theorem Kept.hasData_of_nChainTx (h : Kept par [] n) (he : n.find hash = some e)
    (hne : e.nChainTx ≠ 0) : e.hasData = true := by
  refine (h.linked.received_iff h.tree h.ok he).mp hne hash (h.tree.self_mem_lineOf he) e he

/-- What is below a received block has been received. -/
theorem Kept.ancestor_received (h : Kept par [] n) (he : n.find hash = some e)
    (hne : e.nChainTx ≠ 0) {x : Uint256} (hx : Ancestor n.mapBlockIndex hash x) :
    ∃ ex, n.find x = some ex ∧ ex.nChainTx ≠ 0 := by
  obtain ⟨k, hk⟩ := hx
  induction k generalizing hash e with
  | zero =>
    cases hk
    exact ⟨e, he, hne⟩
  | succ k ih =>
    rw [Pointers.follow_succ, parent_of_find he] at hk
    obtain ⟨p, hp, hk⟩ := Option.bind_eq_some_iff.mp hk
    obtain ⟨ep, hep, -⟩ := h.tree.forest.find_pprev he hp
    have hline : p ∈ lineOf n.mapBlockIndex hash :=
      (h.tree.mem_lineOf_iff he).mpr (Or.inr ⟨p, hp, h.tree.self_mem_lineOf hep⟩)
    exact ih hep (h.linked.line_received h.tree h.ok he hne hline hep) hk

/-- A received block stays one. -/
theorem Grown.nChainTx_ne_zero (h : Grown n n') (hkept : Kept par [] n) (hkept' : Kept par [] n')
    (he : n.find hash = some e) (hne : e.nChainTx ≠ 0) :
    ∃ e', n'.find hash = some e' ∧ e'.nChainTx ≠ 0 := by
  revert hne
  refine hkept.tree.forest.induct (P := fun hash e => e.nChainTx ≠ 0 →
    ∃ e', n'.find hash = some e' ∧ e'.nChainTx ≠ 0) (fun hash e he ih hne => ?_) he
  obtain ⟨e', he', hfixed, hdata⟩ := h.entries hash e he
  have hdata' : e'.hasData = true := hdata (hkept.hasData_of_nChainTx he hne)
  refine ⟨e', he', ?_⟩
  rw [hkept'.linked.received_iff hkept'.tree hkept'.ok he']
  intro x hx ex hex
  rcases (hkept'.tree.mem_lineOf_iff he').mp hx with rfl | ⟨p, hp, hx⟩
  · obtain rfl : ex = e' := Option.some.inj (hex.symm.trans he')
    exact hdata'
  · have hp₀ : e.pprev = some p := (Entry.pprev_of_fixed hfixed).symm.trans hp
    obtain ⟨ep, hep, -⟩ := hkept.tree.forest.find_pprev he hp₀
    have hline : p ∈ lineOf n.mapBlockIndex hash :=
      (hkept.tree.mem_lineOf_iff he).mpr (Or.inr ⟨p, hp₀, hkept.tree.self_mem_lineOf hep⟩)
    obtain ⟨ep', hep', hne'⟩ := ih p ep hp₀ hep
      (hkept.linked.line_received hkept.tree hkept.ok he hne hline hep)
    exact (hkept'.linked.received_iff hkept'.tree hkept'.ok hep').mp hne' x hx ex hex

/-- The blocks of the active chain have been received. -/
theorem Kept.active_received (h : Kept par [] n) (hx : hash ∈ n.chainActive) :
    ∃ e, n.find hash = some e ∧ e.nChainTx ≠ 0 := by
  rcases h.active with ⟨hnil, -⟩ | ⟨hbest, hchain, hgood⟩
  · rw [hnil] at hx
    cases hx
  · obtain ⟨eb, heb⟩ := Option.isSome_iff_exists.mp hbest
    have hline : hash ∈ lineOf n.mapBlockIndex n.bestBlock := by
      rw [hchain] at hx
      exact List.mem_reverse.mp hx
    obtain ⟨e, he⟩ := h.tree.find_of_mem_lineOf heb hline
    refine ⟨e, he, (h.linked.received_iff h.tree h.ok he).mpr fun y hy ey hey => ?_⟩
    have hy' : y ∈ n.chainActive := by
      rw [hchain]
      exact List.mem_reverse.mpr ((h.tree.lineOf_suffix heb hline).mem hy)
    exact (hgood y hy' ey hey).1

/-- All blocks descend from the genesis block. -/
theorem Tree.oneRoot {m : BlockMap} (h : Tree par m) : OneRoot m := by
  intro a ea b eb hea heb ha hb
  have hroot : ∀ {x ex}, m.find x = some ex → ex.pprev = none → x = hashOf par par.genesis := by
    intro x ex hex hnone
    rcases h.rooted x ex hex with ⟨hgen, -⟩ | ⟨p, ep, hp, -⟩
    · exact hgen
    · rw [hnone] at hp
      cases hp
  rw [hroot hea ha, hroot heb hb]

end Received

end Scrypta.BlockIndex
