import Scrypta.Chainstate

/-! A block arrives: its header and its data are checked, it enters the index, it and the
blocks that waited for it become candidates, and the best chain is activated. -/

namespace Scrypta.Chainstate

structure ChainParams where
  hashGenesisBlock : Uint256
  nMaxReorganizationDepth : ℕ

/-- The checks of a block that do not look at the depth of its fork: `CheckWork`, the checks of
`ContextualCheckBlockHeader` on time, checkpoints and version, `CheckBlock` together with
`ContextualCheckBlock`, and whether the block could be written to disk. -/
structure Checks where
  checkWork : Node → CBlock → CBlockIndex → Bool
  checkHeader : Node → CBlock → CBlockIndex → Bool
  checkBlock : Node → CBlock → CBlockIndex → Verdict
  writeBlock : Bool

def contextualCheckBlockHeader (cp : ChainParams) (orc : Checks) (n : Node) (block : CBlock)
    (pindexPrev : CBlockIndex) : Bool :=
  let nHeight : ℤ := pindexPrev.height + 1
  if cp.nMaxReorganizationDepth ≤ n.chainActive.height - nHeight then false
  else orc.checkHeader n block pindexPrev

def Node.addBlock (par : Kernel.Params) (n : Node) (block : CBlock) : Node × CBlockIndex :=
  let pindexNew := Kernel.newBlockIndex par n.mapBlockIndex block
  ({ n.modifyEntry pindexNew fun _ => {} with
      mapBlockIndex := Kernel.addToBlockIndex par n.mapBlockIndex block }, pindexNew)

/-- The index entry of the block, or nothing when its header is refused. -/
def acceptBlockHeader (par : Kernel.Params) (cp : ChainParams) (orc : Checks) (n : Node)
    (block : CBlock) : Node × Option CBlockIndex :=
  match n.mapBlockIndex.find block.hash with
  | some pindex => (n, if (n.entry pindex).failed then none else some pindex)
  | none =>
    if block.hash = cp.hashGenesisBlock then
      let (n, pindex) := n.addBlock par block
      (n, some pindex)
    else
      match n.mapBlockIndex.find block.hashPrevBlock with
      | none => (n, none)
      | some pindexPrev =>
        if (n.entry pindexPrev).failed then (n, none)
        else if contextualCheckBlockHeader cp orc n block pindexPrev then
          let (n, pindex) := n.addBlock par block
          (n, some pindex)
        else (n, none)

def Node.insertCandidate (n : Node) (b : CBlockIndex) : Node :=
  if b ∈ n.setBlockIndexCandidates then n
  else { n with setBlockIndexCandidates := b :: n.setBlockIndexCandidates }

def nChainTxBelow (n : Node) (b : CBlockIndex) : ℕ :=
  match b.parent? with
  | some p => (n.entry p).nChainTx
  | none => 0

/-- One block of the queue: it is numbered and becomes a candidate unless the tip is better. -/
def linkBlock (n : Node) (b : CBlockIndex) : Node :=
  let n := { n.modifyEntry b fun e =>
      { e with nChainTx := nChainTxBelow n b + e.nTx, nSequenceId := n.nBlockSequenceId } with
    nBlockSequenceId := n.nBlockSequenceId + 1 }
  match n.tip with
  | none => n.insertCandidate b
  | some t => if n.workLess b t then n else n.insertCandidate b

/-- Each pass takes one block off the queue and moves the blocks that waited for it from
`mapBlocksUnlinked` to the queue. -/
def linkQueue : ℕ → List CBlockIndex → Node → Node
  | 0, _, n => n
  | _, [], n => n
  | k + 1, b :: queue, n =>
    let n := linkBlock n b
    linkQueue k (queue ++ (n.mapBlocksUnlinked.filter (·.1 = b)).map (·.2))
      { n with mapBlocksUnlinked := n.mapBlocksUnlinked.filter (·.1 ≠ b) }

def receivedBlockTransactions (n : Node) (block : CBlock) (pindexNew : CBlockIndex) : Node :=
  let n := n.modifyEntry pindexNew fun e =>
    { e with nTx := block.vtx.length, nChainTx := 0, fHaveData := true }
  match pindexNew.parent? with
  | none => linkQueue (n.mapBlocksUnlinked.length + 1) [pindexNew] n
  | some p =>
    if (n.entry p).nChainTx ≠ 0 then
      linkQueue (n.mapBlocksUnlinked.length + 1) [pindexNew] n
    else if (n.entry p).failed then n
    else { n with mapBlocksUnlinked := n.mapBlocksUnlinked ++ [(p, pindexNew)] }

def storeBlock (orc : Checks) (n : Node) (block : CBlock) (pindex : CBlockIndex) : Node × Bool :=
  if (n.entry pindex).fHaveData then (n, true)
  else match orc.checkBlock n block pindex with
    | .connected =>
      if orc.writeBlock then (receivedBlockTransactions n block pindex, true) else (n, false)
    | .invalid false => (n.modifyEntry pindex fun e => { e with fFailedValid := true }, false)
    | _ => (n, false)

/-- Whether the parent of the block is known, not failed, and the block's work is right. -/
def checkPrev (cp : ChainParams) (orc : Checks) (n : Node) (block : CBlock) : Bool :=
  if block.hash = cp.hashGenesisBlock then true
  else match n.mapBlockIndex.find block.hashPrevBlock with
    | none => false
    | some pindexPrev => !(n.entry pindexPrev).failed && orc.checkWork n block pindexPrev

def acceptBlock (par : Kernel.Params) (cp : ChainParams) (orc : Checks) (n : Node)
    (block : CBlock) : Node × Bool :=
  if checkPrev cp orc n block then
    match acceptBlockHeader par cp orc n block with
    | (n, none) => (n, false)
    | (n, some pindex) => storeBlock orc n block pindex
  else (n, false)

/-- A block that arrives, with the outcome of its checks, what connecting and disconnecting do
while the chain is activated, and how many rounds the activation gets. -/
structure Arrival where
  block : CBlock
  checks : Checks
  blocks : Blocks
  rounds : ℕ

def processNewBlock (par : Kernel.Params) (cp : ChainParams) (n : Node) (a : Arrival) :
    Activation :=
  match acceptBlock par cp a.checks n a.block with
  | (n, false) => ⟨n, []⟩
  | (n, true) => (activateBestChain a.blocks a.rounds n).1

def step (par : Kernel.Params) (cp : ChainParams) (n : Node) (a : Arrival) : Node :=
  (processNewBlock par cp n a).node

/-! Accepting a block does not move the active chain. -/

theorem insertCandidate_chainActive (n : Node) (b : CBlockIndex) :
    (n.insertCandidate b).chainActive = n.chainActive := by
  unfold Node.insertCandidate
  split <;> rfl

theorem linkBlock_chainActive (n : Node) (b : CBlockIndex) :
    (linkBlock n b).chainActive = n.chainActive := by
  simp only [linkBlock]
  split
  · rw [insertCandidate_chainActive]
    rfl
  · split
    · rfl
    · rw [insertCandidate_chainActive]
      rfl

theorem linkQueue_chainActive (k : ℕ) (queue : List CBlockIndex) (n : Node) :
    (linkQueue k queue n).chainActive = n.chainActive := by
  induction k generalizing queue n with
  | zero => rfl
  | succ k ih =>
    cases queue with
    | nil => rfl
    | cons b queue =>
      simp only [linkQueue]
      rw [ih]
      exact linkBlock_chainActive n b

theorem receivedBlockTransactions_chainActive (n : Node) (block : CBlock) (b : CBlockIndex) :
    (receivedBlockTransactions n block b).chainActive = n.chainActive := by
  simp only [receivedBlockTransactions]
  split
  · rw [linkQueue_chainActive]
    rfl
  · split
    · rw [linkQueue_chainActive]
      rfl
    · split <;> rfl

theorem storeBlock_chainActive (orc : Checks) (n : Node) (block : CBlock) (b : CBlockIndex) :
    (storeBlock orc n block b).1.chainActive = n.chainActive := by
  unfold storeBlock
  split
  · rfl
  · split
    · split
      · exact receivedBlockTransactions_chainActive n block b
      · rfl
    · rfl
    · rfl

theorem acceptBlockHeader_chainActive (par : Kernel.Params) (cp : ChainParams) (orc : Checks)
    (n : Node) (block : CBlock) :
    (acceptBlockHeader par cp orc n block).1.chainActive = n.chainActive := by
  unfold acceptBlockHeader
  split
  · rfl
  · split
    · rfl
    · split
      · rfl
      · split
        · rfl
        · split <;> rfl

theorem acceptBlock_chainActive (par : Kernel.Params) (cp : ChainParams) (orc : Checks)
    (n : Node) (block : CBlock) :
    (acceptBlock par cp orc n block).1.chainActive = n.chainActive := by
  unfold acceptBlock
  have hheader := acceptBlockHeader_chainActive par cp orc n block
  split
  · split
    · next h => rw [← hheader, h]
    · next h =>
      rw [storeBlock_chainActive, ← hheader, h]
  · rfl

end Scrypta.Chainstate
