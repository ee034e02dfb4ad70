import Scrypta.AcceptBlock
import Scrypta.ConnectBlock
import Scrypta.ProofOfWork

/-! What stands behind a block whose data `AcceptBlock` stores: the kernel of its stake, or the
difficulty of its work. -/

namespace Scrypta.Backing

open ProofOfWork
open Kernel (BlockMap KernelResult checkStakeKernelHash)
open Chainstate (Node Checks ChainParams Verdict acceptBlock acceptBlockHeader storeBlock checkPrev)

/-- What the check of a stake reads of the rest of the node. `getTransaction` gives a transaction
and the hash of its block, which is null for one in the memory pool; `verifyScript` runs the two
scripts of the first input of a transaction. -/
structure Storage where
  Hash : Bytes → Uint256
  getTransaction : Uint256 → Option (CTransaction × Uint256)
  readBlockFromDisk : CBlockIndex → Option CBlock
  verifyScript : CScript → CScript → CTransaction → Bool

section Stake

variable (disk : Storage) (mapBlockIndex : BlockMap) (chainActive : CChain)

/-- The verdict, and the proof hash if one was computed. `none` where the program reads outside of
a vector. -/
def checkProofOfStake (block : CBlock) : Option (Bool × Option Uint256) :=
  match block.vtx[1]? with
  | none => none
  | some tx =>
    if !tx.isCoinStake then some (false, none)
    else
      match tx.vin with
      | [] => none
      | txin :: _ =>
        match disk.getTransaction txin.prevout.hash with
        | none => some (false, none)
        | some (txPrev, hashBlock) =>
          match txPrev.vout[txin.prevout.n.toNat]? with
          | none => none
          | some out =>
            if !disk.verifyScript txin.scriptSig out.scriptPubKey tx then some (false, none)
            else
              match mapBlockIndex.find hashBlock with
              | none => some (false, none)
              | some pindex =>
                match disk.readBlockFromDisk pindex with
                | none => some (false, none)
                | some blockprev =>
                  (checkStakeKernelHash disk.Hash mapBlockIndex chainActive block.nBits blockprev
                    txPrev txin.prevout block.nTime 0 true).map fun r =>
                      (r.verdict, r.hashProofOfStake)

/-- The output that the coinstake spends first was found, its script allows the spending, and the
kernel hash over it hit the target. -/
def StakeChecked (block : CBlock) : Prop :=
  ∃ tx txin txPrev hashBlock out pindex blockprev r,
    block.vtx[1]? = some tx ∧ tx.vin.head? = some txin ∧
      disk.getTransaction txin.prevout.hash = some (txPrev, hashBlock) ∧
      txPrev.vout[txin.prevout.n.toNat]? = some out ∧
      disk.verifyScript txin.scriptSig out.scriptPubKey tx = true ∧
      mapBlockIndex.find hashBlock = some pindex ∧
      disk.readBlockFromDisk pindex = some blockprev ∧
      checkStakeKernelHash disk.Hash mapBlockIndex chainActive block.nBits blockprev txPrev
        txin.prevout block.nTime 0 true = some r ∧ r.verdict = true

variable {disk mapBlockIndex chainActive}

theorem stakeChecked_of_checkProofOfStake {block : CBlock} {h : Option Uint256}
    (hcheck : checkProofOfStake disk mapBlockIndex chainActive block = some (true, h)) :
    StakeChecked disk mapBlockIndex chainActive block := by
  simp only [checkProofOfStake] at hcheck
  split at hcheck
  · cases hcheck
  next tx htx =>
  split at hcheck
  · cases hcheck
  split at hcheck
  · cases hcheck
  next txin rest hvin =>
  split at hcheck
  · cases hcheck
  next txPrev hashBlock hget =>
  split at hcheck
  · cases hcheck
  next out hout =>
  split at hcheck
  · cases hcheck
  next hscript =>
  split at hcheck
  · cases hcheck
  next pindex hfind =>
  split at hcheck
  · cases hcheck
  next blockprev hread =>
  obtain ⟨r, hr, hverdict⟩ := Option.map_eq_some_iff.mp hcheck
  exact ⟨tx, txin, txPrev, hashBlock, out, pindex, blockprev, r, htx, by rw [hvin]; rfl, hget, hout,
    by simpa using hscript, hfind, hread, hr, congrArg Prod.fst hverdict⟩

end Stake

section Work

variable (par : Params) (disk : Storage)

/-- The time and the bits of the one block that was minted with a wrong threshold. -/
def hasBadBlockHeader (block : CBlock) : Bool :=
  block.nTime == BitVec.ofInt 32 par.nLyraBadBlockTime && block.nBits == par.nLyraBadBlockBits

/-- The verdict, and what is put into `mapProofOfStake`. -/
def checkWork (n : Node) (block : CBlock) (pindexPrev : CBlockIndex) :
    Option (Bool × Option Uint256) :=
  if block.nBits ≠ getNextWorkRequired par pindexPrev then some (hasBadBlockHeader par block, none)
  else if block.isProofOfStake then
    checkProofOfStake disk n.mapBlockIndex n.chainActive block
  else some (true, none)

variable {par disk}

theorem checkWork_cases {n : Node} {block : CBlock} {pindexPrev : CBlockIndex} {h : Option Uint256}
    (hcheck : checkWork par disk n block pindexPrev = some (true, h)) :
    (block.nBits ≠ getNextWorkRequired par pindexPrev ∧ hasBadBlockHeader par block = true) ∨
      (block.nBits = getNextWorkRequired par pindexPrev ∧
        (block.isProofOfStake = true → StakeChecked disk n.mapBlockIndex n.chainActive block)) := by
  rw [checkWork] at hcheck
  split at hcheck
  · next hbits => exact Or.inl ⟨hbits, congrArg Prod.fst (Option.some.inj hcheck)⟩
  · next hbits =>
    refine Or.inr ⟨not_not.mp hbits, fun hstake => ?_⟩
    rw [if_pos hstake] at hcheck
    exact stakeChecked_of_checkProofOfStake hcheck

end Work

/-! The checks of `AcceptBlock`. -/

def verdictOf : Validation.Refusal → Verdict
  | .dos _ _ corruptionIn => .invalid corruptionIn
  | .failed => .error
  | .noReturn => .noReturn
  | .crashed => .noReturn

/-- What the checks use that does not concern work or stake: the parameters and the surroundings of
`CheckBlock`, the other checks of `ContextualCheckBlockHeader`, `ContextualCheckBlock`, and
whether the block can be written. -/
structure Others where
  params : Validation.Params
  oracles : Validation.Oracles
  env : Validation.Env
  checkHeader : Node → CBlock → CBlockIndex → Bool
  contextualCheckBlock : Node → CBlock → CBlockIndex → Verdict
  writeBlock : Bool

section Accept

variable (par : Params) (disk : Storage) (other : Others)

/-- `CheckBlock` on a node. -/
def checkBlockOn (n : Node) (block : CBlock) : Except Validation.Refusal Unit :=
  Validation.checkBlock other.params { other.oracles with checkProofOfWork := checkProofOfWork par }
    { other.env with chainActive := n.chainActive, mapBlockIndex := n.mapBlockIndex } block true

def checks : Checks where
  checkWork n block pindexPrev := (checkWork par disk n block pindexPrev).any Prod.fst
  checkHeader := other.checkHeader
  checkBlock n block pindex :=
    match checkBlockOn par other n block with
    | .error r => verdictOf r
    | .ok () => other.contextualCheckBlock n block pindex
  writeBlock := other.writeBlock

/-- `AcceptBlock` returns true and the data of the block is new. -/
def Stores (kpar : Kernel.Params) (cp : ChainParams) (n : Node) (block : CBlock) : Prop :=
  (acceptBlock kpar cp (checks par disk other) n block).2 = true ∧
    ∀ pindex, n.mapBlockIndex.find block.hash = some pindex → (n.entry pindex).fHaveData = false

variable {par disk other}

theorem validTarget_of_checkBlock {n : Node} {block : CBlock}
    (h : checkBlockOn par other n block = .ok ()) (hwork : block.isProofOfWork = true) :
    ValidTarget par block.nBits := by
  simp only [checkBlockOn, Validation.checkBlock, Validation.bind_ok, Validation.require_ok] at h
  obtain ⟨_, hpow, -⟩ := h
  rw [hwork, Bool.not_true, Bool.false_or] at hpow
  exact checkProofOfWork_iff.mp hpow

theorem verdictOf_ne_connected (r : Validation.Refusal) : verdictOf r ≠ .connected := by
  cases r <;> exact nofun

theorem storeBlock_connected {orc : Checks} {n : Node} {block : CBlock} {pindex : CBlockIndex}
    (h : (storeBlock orc n block pindex).2 = true) (hnew : (n.entry pindex).fHaveData = false) :
    orc.checkBlock n block pindex = .connected := by
  rw [storeBlock, hnew] at h
  simp only [Bool.false_eq_true, if_false] at h
  split at h
  · assumption
  · cases h
  · cases h

/-- A block whose data is stored has passed `CheckBlock`. -/
theorem checkBlock_of_stored {n : Node} {block : CBlock} {pindex : CBlockIndex}
    (h : (storeBlock (checks par disk other) n block pindex).2 = true)
    (hnew : (n.entry pindex).fHaveData = false) : checkBlockOn par other n block = .ok () := by
  have hconnected := storeBlock_connected h hnew
  simp only [checks] at hconnected
  split at hconnected
  · next r _ => exact absurd hconnected (verdictOf_ne_connected r)
  · assumption

/-- The index entry under which the data goes was there before or has just been made. -/
theorem acceptBlockHeader_entry {kpar : Kernel.Params} {cp : ChainParams} {orc : Checks}
    {n n' : Node} {block : CBlock} {pindex : CBlockIndex}
    (h : acceptBlockHeader kpar cp orc n block = (n', some pindex)) :
    n.mapBlockIndex.find block.hash = some pindex ∧ n' = n ∨
      (n'.entry pindex).fHaveData = false := by
  have hadd : ∀ {m : Node} {b : CBlockIndex}, n.addBlock kpar block = (m, b) →
      (m.entry b).fHaveData = false := by
    intro m b hm
    cases hm
    simp [Node.modifyEntry]
  unfold acceptBlockHeader at h
  split at h
  · next b hfind =>
    simp only [Prod.mk.injEq] at h
    obtain ⟨rfl, h⟩ := h
    split at h
    · cases h
    · exact Or.inl ⟨hfind.trans h, rfl⟩
  · split at h
    · cases h
      exact Or.inr (hadd rfl)
    · split at h
      · cases h
      · split at h
        · cases h
        · split at h
          · cases h
            exact Or.inr (hadd rfl)
          · cases h

/-- A block that is stored has passed `CheckWork` above its parent, and `CheckBlock`. -/
theorem checked_of_stores {kpar : Kernel.Params} {cp : ChainParams} {n : Node} {block : CBlock}
    (hgenesis : block.hash ≠ cp.hashGenesisBlock) (h : Stores par disk other kpar cp n block) :
    ∃ pindexPrev, n.mapBlockIndex.find block.hashPrevBlock = some pindexPrev ∧
      (∃ p, checkWork par disk n block pindexPrev = some (true, p)) ∧
      ∃ n', checkBlockOn par other n' block = .ok () := by
  obtain ⟨haccept, hnew⟩ := h
  rw [acceptBlock] at haccept
  split at haccept
  · next hprev =>
    rw [checkPrev, if_neg hgenesis] at hprev
    split at hprev
    · cases hprev
    · next pindexPrev hfind =>
      refine ⟨pindexPrev, hfind, ?_, ?_⟩
      · simp only [checks, Bool.and_eq_true, Option.any_eq_true] at hprev
        obtain ⟨_, ⟨b, p⟩, hwork, rfl⟩ := hprev
        exact ⟨p, hwork⟩
      · split at haccept
        · cases haccept
        · next n' pindex hheader =>
          have hdata : (n'.entry pindex).fHaveData = false := by
            rcases acceptBlockHeader_entry hheader with ⟨hknown, rfl⟩ | hfresh
            · exact hnew pindex hknown
            · exact hfresh
          exact ⟨n', checkBlock_of_stored haccept hdata⟩
  · cases haccept

/-- The block is proof of stake with the required difficulty and a checked kernel, or proof of work
with the required difficulty and a hash within its target. -/
def Backed (par : Params) (disk : Storage) (n : Node) (block : CBlock) : Prop :=
  ∃ pindexPrev, n.mapBlockIndex.find block.hashPrevBlock = some pindexPrev ∧
    block.nBits = getNextWorkRequired par pindexPrev ∧
      ((block.isProofOfStake = true ∧ StakeChecked disk n.mapBlockIndex n.chainActive block) ∨
        (block.isProofOfWork = true ∧ block.hash ≤ setCompact block.nBits))

/-- A block that is stored has the required difficulty, and its stake was checked or the target of
its work is valid; only a block with the exceptional time and bits may differ in the first two. -/
theorem stored_block_backed (par : Params) (disk : Storage) (other : Others)
    (kpar : Kernel.Params) (cp : ChainParams) (n : Node) (block : CBlock)
    (hgenesis : block.hash ≠ cp.hashGenesisBlock) (h : Stores par disk other kpar cp n block) :
    (block.isProofOfWork = true → ValidTarget par block.nBits) ∧
      ∃ pindexPrev, n.mapBlockIndex.find block.hashPrevBlock = some pindexPrev ∧
        ((block.nBits = getNextWorkRequired par pindexPrev ∧
            (block.isProofOfStake = true →
              StakeChecked disk n.mapBlockIndex n.chainActive block)) ∨
          (block.nBits ≠ getNextWorkRequired par pindexPrev ∧
            hasBadBlockHeader par block = true)) := by
  obtain ⟨pindexPrev, hfind, ⟨p, hwork⟩, n', hchecked⟩ := checked_of_stores hgenesis h
  exact ⟨validTarget_of_checkBlock hchecked, pindexPrev, hfind, (checkWork_cases hwork).symm⟩

end Accept

section Runs

/-- The parameters of the main network. -/
def mainWork : Params where
  bnProofOfWorkLimit := (~~~0 : Uint256) >>> 20
  nLastPOWBlock := 750
  nTargetSpacing := 60
  fSkipProofOfWorkCheck := false
  nLyraBadBlockTime := 1545446256
  nLyraBadBlockBits := 0x1e013b10

def genesisIndex : CBlockIndex := .root ⟨1000, 1545392792, 0x1e0ffff0, false, false, 0⟩

/-- A node that has only the first block. -/
def newNode : Node where
  mapBlockIndex := Dict.empty.set 1000 genesisIndex
  entry _ := { nTx := 1, nChainTx := 1, fHaveData := true }
  address _ := 0
  chainActive := CChain.ofTip genesisIndex
  setBlockIndexCandidates := [genesisIndex]
  mapBlocksUnlinked := []
  nBlockSequenceId := 2

/-- It knows no transaction. -/
def emptyStorage : Storage := ⟨fun _ => 0, fun _ => none, fun _ => none, fun _ _ _ => false⟩

def acceptingOthers : Others where
  params := Validation.mainParams
  oracles := Validation.plainOracles
  env :=
    { Validation.plainEnv genesisIndex Dict.empty Dict.empty with isInitialBlockDownload := true }
  checkHeader _ _ _ := true
  contextualCheckBlock _ _ _ := .connected
  writeBlock := true

/-- Its coinstake spends an output that does not exist. -/
def unstakedBlock : CBlock where
  hash := 1001
  hashPrevBlock := 1000
  nTime := 1545446256
  nBits := 0x1e013b10
  vtx := [Validation.coinbaseOf 500 [⟨0, [], -10⟩],
    Validation.spendOf 501 ⟨77, 0⟩ [⟨0, [], -10⟩, ⟨coin, [0x51], -10⟩]]

/-- Its hash is the largest there is. -/
def unworkedBlock : CBlock where
  hash := ~~~0
  hashPrevBlock := 1000
  nTime := 1545446256
  nBits := 0x1e0fffff
  vtx := [Validation.coinbaseOf 500 [⟨0, [0x51], -10⟩]]

def sampleKernel : Kernel.Params := ⟨fun _ => 0, 0, 615800⟩

theorem stores_of_new {par : Params} {disk : Storage} {other : Others} {kpar : Kernel.Params}
    {cp : ChainParams} {n : Node} {block : CBlock}
    (h : (acceptBlock kpar cp (checks par disk other) n block).2 = true)
    (hnew : n.mapBlockIndex.find block.hash = none) : Stores par disk other kpar cp n block :=
  ⟨h, fun pindex hfind => by rw [hnew] at hfind; cases hfind⟩

theorem stores_unstakedBlock :
    Stores mainWork emptyStorage acceptingOthers sampleKernel ⟨1000, 100⟩ newNode unstakedBlock :=
  stores_of_new (by decide) (by decide)

/-- Neither the stake of the one nor the work of the other block is checked. -/
theorem unbacked_blocks_are_stored :
    (Stores mainWork emptyStorage acceptingOthers sampleKernel ⟨1000, 100⟩ newNode unstakedBlock ∧
      ¬Backed mainWork emptyStorage newNode unstakedBlock) ∧
    (Stores mainWork emptyStorage acceptingOthers sampleKernel ⟨1000, 100⟩ newNode unworkedBlock ∧
      ¬Backed mainWork emptyStorage newNode unworkedBlock) := by
  refine ⟨⟨stores_unstakedBlock, fun h => ?_⟩,
    ⟨stores_of_new (by decide) (by decide), fun h => ?_⟩⟩
  · obtain ⟨pindexPrev, hfind, hbits, -⟩ := h
    obtain rfl : genesisIndex = pindexPrev :=
      Option.some.inj ((Dict.find_set_self _ _ _).symm.trans hfind)
    exact absurd hbits (by decide)
  · obtain ⟨_, _, _, ⟨hstake, -⟩ | ⟨-, hwork⟩⟩ := h
    · exact absurd hstake (by decide)
    · exact absurd hwork (by decide)

theorem stored_block_backed_sample :
    ∃ pindexPrev, newNode.mapBlockIndex.find unstakedBlock.hashPrevBlock = some pindexPrev ∧
      ((unstakedBlock.nBits = getNextWorkRequired mainWork pindexPrev ∧
          (unstakedBlock.isProofOfStake = true →
            StakeChecked emptyStorage newNode.mapBlockIndex newNode.chainActive unstakedBlock)) ∨
        (unstakedBlock.nBits ≠ getNextWorkRequired mainWork pindexPrev ∧
          hasBadBlockHeader mainWork unstakedBlock = true)) :=
  (stored_block_backed mainWork emptyStorage acceptingOthers sampleKernel ⟨1000, 100⟩ newNode
    unstakedBlock (by decide) stores_unstakedBlock).2

end Runs

end Scrypta.Backing
