import Scrypta.Kernel

/-! What the kernel check reads besides the branch of the checked block. The modifier is
looked up along the active chain, so two nodes agree on a kernel exactly when the first late
enough modifier above the staked coin is the same on their active chains. -/

namespace Scrypta.Kernel

/-- The block generated a modifier a selection interval or more after `A`. -/
def lateModifier (A b : CBlockIndex) : Bool :=
  b.generatedStakeModifier &&
    decide (A.getBlockTime + getStakeModifierSelectionInterval ≤ b.getBlockTime)

/-- The first block above the height of `A` with a late modifier. -/
def laterModifierBlock (c : CChain) (A : CBlockIndex) : Option CBlockIndex :=
  (c.vChain.drop (A.height + 1)).find? (lateModifier A)

/-- The two chains have the same first late modifier above `A`, or neither has one. -/
def SameLaterModifier (c₁ c₂ : CChain) (A : CBlockIndex) : Prop :=
  (laterModifierBlock c₁ A).map (·.nStakeModifier) =
    (laterModifierBlock c₂ A).map (·.nStakeModifier)

/-- The staked output exists and is old enough at the time of the stake. -/
def Eligible (blockFrom : CBlock) (txPrev : CTransaction) (prevout : COutPoint)
    (nTimeTx : BitVec 32) : Prop :=
  prevout.n.toNat < txPrev.vout.length ∧ blockFrom.nTime ≤ nTimeTx ∧
    blockFrom.nTime + nStakeMinAge ≤ nTimeTx

def kernelModifierOf (b : CBlockIndex) : KernelModifier :=
  ⟨b.nStakeModifier, b.height, b.getBlockTime⟩

theorem selectionInterval_pos : 0 < getStakeModifierSelectionInterval := by decide

theorem kernelModifierLoop_eq (A : CBlockIndex) (following : List CBlockIndex)
    (pindex : CBlockIndex) (h : ℕ) {t : ℤ}
    (ht : t < A.getBlockTime + getStakeModifierSelectionInterval) :
    kernelModifierLoop (A.getBlockTime + getStakeModifierSelectionInterval) following pindex h t =
      (following.find? (lateModifier A)).map kernelModifierOf := by
  induction following generalizing pindex h t with
  | nil =>
    unfold kernelModifierLoop
    rw [if_pos ht]
    rfl
  | cons b following ih =>
    unfold kernelModifierLoop
    rw [if_pos ht]
    by_cases hg : b.generatedStakeModifier = true
    · by_cases hb : b.getBlockTime < A.getBlockTime + getStakeModifierSelectionInterval
      · have hlate : lateModifier A b = false := by simp [lateModifier, hb]
        simp only [hg, if_true, List.find?_cons, hlate]
        exact ih b b.height hb
      · have hlate : lateModifier A b = true := by simp [lateModifier, hg, Int.not_lt.mp hb]
        simp only [hg, if_true, List.find?_cons, hlate]
        unfold kernelModifierLoop
        rw [if_neg hb]
        rfl
    · have hlate : lateModifier A b = false := by simp [lateModifier, hg]
      simp only [hg, List.find?_cons, hlate]
      exact ih b h ht

/-- The walk along the active chain finds the first late modifier. -/
theorem getKernelStakeModifier_eq {mapBlockIndex : BlockMap} {hashBlockFrom : Uint256}
    {A : CBlockIndex} (hA : mapBlockIndex.find hashBlockFrom = some A) (c : CChain) :
    getKernelStakeModifier mapBlockIndex c hashBlockFrom =
      (laterModifierBlock c A).map kernelModifierOf := by
  have hpos := selectionInterval_pos
  simp only [getKernelStakeModifier, hA]
  exact kernelModifierLoop_eq A _ A A.height (by omega)

theorem vChain_of_tip {c : CChain} {t : CBlockIndex} (ht : c.tip = some t) :
    c.vChain = t.branch := by
  rw [c.eq_setTip, ht]
  rfl

/-- On a chain through a block with a late modifier the search ends at or below it. -/
theorem laterModifierBlock_eq_branch {c : CChain} {A b t : CBlockIndex} (ht : c.tip = some t)
    (hbt : b ≤ t) (hAb : A.height < b.height) (hlate : lateModifier A b = true) :
    laterModifierBlock c A = (b.branch.drop (A.height + 1)).find? (lateModifier A) := by
  obtain ⟨r, hr⟩ := Lineage.branch_prefix hbt
  have hlen : A.height + 1 ≤ b.branch.length := by
    rw [Lineage.length_branch]
    omega
  have hb : b ∈ b.branch.drop (A.height + 1) := by
    have hget : b.branch[A.height + 1 + (b.height - (A.height + 1))]? = some b := by
      rw [Nat.add_sub_cancel' hAb]
      exact Lineage.getElem?_branch_height b
    exact List.mem_iff_getElem?.mpr ⟨b.height - (A.height + 1), by rw [List.getElem?_drop, hget]⟩
  have hfound : ((b.branch.drop (A.height + 1)).find? (lateModifier A)).isSome :=
    List.find?_isSome.mpr ⟨b, hb, hlate⟩
  rw [laterModifierBlock, vChain_of_tip ht, ← hr, List.drop_append_of_le_length hlen,
    List.find?_append, Option.or_of_isSome hfound]

/-- A late modifier that is the first on one chain is the first on every chain through its
block. -/
theorem laterModifierBlock_of_le {c₁ c₂ : CChain} {A b t : CBlockIndex}
    (hb : laterModifierBlock c₁ A = some b) (ht : c₂.tip = some t) (hbt : b ≤ t) :
    laterModifierBlock c₂ A = some b := by
  have hlate : lateModifier A b = true := List.find?_some hb
  obtain ⟨k, hk⟩ := List.mem_iff_getElem?.mp (List.mem_of_find?_eq_some hb)
  rw [List.getElem?_drop] at hk
  obtain ⟨t₁, ht₁, hbt₁, hheight⟩ := CChain.getElem?_vChain.mp hk
  have hAb : A.height < b.height := by omega
  rw [← hb, laterModifierBlock_eq_branch ht hbt hAb hlate,
    laterModifierBlock_eq_branch ht₁ hbt₁ hAb hlate]

section Agreement

variable {Hash : Bytes → Uint256} {mapBlockIndex : BlockMap} {blockFrom : CBlock}
  {A : CBlockIndex}

/-- An eligible stake is hashed with the first late modifier above the staked coin. -/
theorem checkStakeKernelHash_eq (hA : mapBlockIndex.find blockFrom.hash = some A) (c : CChain)
    (nBits : BitVec 32) {txPrev : CTransaction} {prevout : COutPoint} {nTimeTx : BitVec 32}
    (nHashDrift : BitVec 32) (h : Eligible blockFrom txPrev prevout nTimeTx) :
    checkStakeKernelHash Hash mapBlockIndex c nBits blockFrom txPrev prevout nTimeTx
        nHashDrift true =
      some (match (laterModifierBlock c A).map (·.nStakeModifier) with
        | none => ⟨false, nTimeTx, none⟩
        | some m =>
          ⟨stakeTargetHit (stakeHash Hash nTimeTx m prevout blockFrom.nTime)
            (txPrev.vout.get ⟨prevout.n.toNat, h.1⟩).nValue (setCompact nBits), nTimeTx,
            some (stakeHash Hash nTimeTx m prevout blockFrom.nTime)⟩) := by
  obtain ⟨hn, htime, hage⟩ := h
  have hget : getKernelStakeModifier mapBlockIndex c blockFrom.getHash = _ :=
    getKernelStakeModifier_eq hA c
  simp only [checkStakeKernelHash, List.getElem?_eq_getElem hn, BitVec.not_lt.mpr htime,
    BitVec.not_lt.mpr hage, if_false, if_true, hget]
  cases laterModifierBlock c A <;> rfl

theorem checkStakeKernelHash_of_not_eligible (c₁ c₂ : CChain) (nBits : BitVec 32)
    {txPrev : CTransaction} {prevout : COutPoint} {nTimeTx : BitVec 32}
    (nHashDrift : BitVec 32) (fCheck : Bool) (h : ¬Eligible blockFrom txPrev prevout nTimeTx) :
    checkStakeKernelHash Hash mapBlockIndex c₁ nBits blockFrom txPrev prevout nTimeTx
        nHashDrift fCheck =
      checkStakeKernelHash Hash mapBlockIndex c₂ nBits blockFrom txPrev prevout nTimeTx
        nHashDrift fCheck := by
  unfold checkStakeKernelHash
  cases hout : txPrev.vout[prevout.n.toNat]? with
  | none => rfl
  | some out =>
    have hn : prevout.n.toNat < txPrev.vout.length := (List.getElem?_eq_some_iff.mp hout).1
    by_cases htime : nTimeTx < blockFrom.nTime
    · simp only [htime, if_true]
    · by_cases hage : nTimeTx < blockFrom.nTime + nStakeMinAge
      · simp only [htime, hage, if_true, if_false]
      · exact absurd ⟨hn, BitVec.not_lt.mp htime, BitVec.not_lt.mp hage⟩ h

theorem checkStakeKernelHash_eq_iff (hA : mapBlockIndex.find blockFrom.hash = some A)
    (c₁ c₂ : CChain) (nBits : BitVec 32) (txPrev : CTransaction) {prevout : COutPoint}
    {nTimeTx : BitVec 32} (nHashDrift : BitVec 32)
    (hHash : Function.Injective fun m => stakeHash Hash nTimeTx m prevout blockFrom.nTime) :
    checkStakeKernelHash Hash mapBlockIndex c₁ nBits blockFrom txPrev prevout nTimeTx
        nHashDrift true =
      checkStakeKernelHash Hash mapBlockIndex c₂ nBits blockFrom txPrev prevout nTimeTx
        nHashDrift true ↔
    (Eligible blockFrom txPrev prevout nTimeTx → SameLaterModifier c₁ c₂ A) := by
  by_cases h : Eligible blockFrom txPrev prevout nTimeTx
  · rw [checkStakeKernelHash_eq hA c₁ nBits nHashDrift h,
      checkStakeKernelHash_eq hA c₂ nBits nHashDrift h]
    unfold SameLaterModifier
    constructor
    · intro heq _
      generalize (laterModifierBlock c₁ A).map (·.nStakeModifier) = m₁ at heq
      generalize (laterModifierBlock c₂ A).map (·.nStakeModifier) = m₂ at heq
      cases m₁ <;> cases m₂ <;>
        simp only [Option.some.injEq, KernelResult.mk.injEq, reduceCtorEq, and_false] at heq ⊢
      exact hHash heq.2.2
    · intro hsame
      rw [hsame h]
  · exact ⟨fun _ he => absurd he h,
      fun _ => checkStakeKernelHash_of_not_eligible c₁ c₂ nBits nHashDrift true h⟩

/-- The modifier that the ancestors of `P` determine for a coin of `A`. -/
def branchModifier (A P : CBlockIndex) : Option (BitVec 64) :=
  ((P.branch.drop (A.height + 1)).find? (lateModifier A)).map (·.nStakeModifier)

/-- Two nodes with one index and different active chains agree on a kernel exactly when the
stake is refused for its age or its output, or their chains have the same first late modifier.
A node finds the modifier of the branch of `P` under the same condition. -/
theorem kernel_agrees_iff_sameLaterModifier
    (hA : mapBlockIndex.find blockFrom.hash = some A) (c₁ c₂ : CChain) (nBits : BitVec 32)
    (txPrev : CTransaction) (prevout : COutPoint) (nTimeTx nHashDrift : BitVec 32)
    (hHash : Function.Injective fun m => stakeHash Hash nTimeTx m prevout blockFrom.nTime) :
    (checkStakeKernelHash Hash mapBlockIndex c₁ nBits blockFrom txPrev prevout nTimeTx
        nHashDrift true =
      checkStakeKernelHash Hash mapBlockIndex c₂ nBits blockFrom txPrev prevout nTimeTx
        nHashDrift true ↔
      (Eligible blockFrom txPrev prevout nTimeTx → SameLaterModifier c₁ c₂ A)) ∧
    ∀ P, A ≤ P →
      ((getKernelStakeModifier mapBlockIndex c₁ blockFrom.hash).map (·.nStakeModifier) =
          branchModifier A P ↔
        SameLaterModifier c₁ (CChain.ofTip P) A) := by
  refine ⟨checkStakeKernelHash_eq_iff hA c₁ c₂ nBits txPrev nHashDrift hHash, fun P _ => ?_⟩
  rw [getKernelStakeModifier_eq hA c₁, Option.map_map]
  exact Iff.rfl

end Agreement

/-! A fork above the block of a coin. One branch runs on for an hour; all blocks of the other
fall into the minute of the coin and generate no modifier. -/

def forkBlock (hash prev time : ℕ) : CBlock where
  hash := BitVec.ofNat 256 hash
  hashPrevBlock := BitVec.ofNat 256 prev
  nTime := BitVec.ofNat 32 time
  nBits := 0x1e0fffff
  vtx := [⟨BitVec.ofNat 256 (1000 + hash), 1, [⟨COutPoint.null, [], BitVec.allOnes 32⟩],
    [⟨100 * coin, [], -10⟩], 0⟩]

def forkBlocks : List CBlock :=
  [forkBlock 1 0 0, forkBlock 2 1 60, forkBlock 3 2 3060, forkBlock 4 3 3120,
    forkBlock 5 2 61, forkBlock 6 5 62]

def indexBlocks (par : Params) (blocks : List CBlock) : BlockMap :=
  blocks.foldl (addToBlockIndex par) Dict.empty

/-- On an index built from `blocks`, every two active chains give the same verdict and the
same proof hash to a stake of a coin of `A` in a block over `P`. -/
def StakeCheckOnBranch (par : Params) : Prop :=
  ∀ (blocks : List CBlock) (A P t₁ t₂ : CBlockIndex) (blockFrom : CBlock)
    (txPrev : CTransaction) (prevout : COutPoint) (nBits nTimeTx : BitVec 32),
    blockFrom ∈ blocks → txPrev ∈ blockFrom.vtx →
    (indexBlocks par blocks).find blockFrom.hash = some A →
    (indexBlocks par blocks).find P.getBlockHash = some P →
    (indexBlocks par blocks).find t₁.getBlockHash = some t₁ →
    (indexBlocks par blocks).find t₂.getBlockHash = some t₂ → A ≤ P →
    checkStakeKernelHash par.Hash (indexBlocks par blocks) (CChain.ofTip t₁) nBits blockFrom
        txPrev prevout nTimeTx 0 true =
      checkStakeKernelHash par.Hash (indexBlocks par blocks) (CChain.ofTip t₂) nBits blockFrom
        txPrev prevout nTimeTx 0 true

section Fork

variable (par : Params)

def forkInfo (hash time : ℕ) (generated : Bool) (modifier : BitVec 64) : BlockInfo :=
  ⟨BitVec.ofNat 256 hash, BitVec.ofNat 32 time, 0x1e0fffff, false, generated, modifier⟩

def forkGenesis : CBlockIndex := .root (forkInfo 1 0 false 0)
def forkCoin : CBlockIndex := .child forkGenesis (forkInfo 2 60 true par.literal)
def forkLong : CBlockIndex := .child (forkCoin par) (forkInfo 3 3060 false par.literal)
def forkShort : CBlockIndex := .child (forkCoin par) (forkInfo 5 61 false par.literal)
def forkShortTip : CBlockIndex := .child (forkShort par) (forkInfo 6 62 false par.literal)

def forkLongTip (modifier : BitVec 64) : CBlockIndex :=
  .child (forkLong par) (forkInfo 4 3120 true modifier)

theorem selectionInterval_eq : getStakeModifierSelectionInterval = 2087 := by decide

theorem next_in_minute {m : BlockMap} {b : CBlockIndex} (hb : b.height ≠ 0)
    (hlast : getLastStakeModifier b = some (par.literal, 60)) (ht : b.getBlockTime < 120) :
    computeNextStakeModifier par m b = (par.literal, false) := by
  refine computeNextStakeModifier_of_young hb hlast ?_
  simp only [modifierInterval]
  omega

theorem new_forkLongTip {m : BlockMap} (hm : m.find 3 = some (forkLong par)) :
    ∃ modifier, newBlockIndex par m (forkBlock 4 3 3120) = forkLongTip par modifier := by
  have htime : (forkLong par).getBlockTime = 3060 := rfl
  have hgen : (computeNextStakeModifier par m (forkLong par)).2 = true := by
    refine computeNextStakeModifier_of_single (b := forkLong par) (m := par.literal) (t := 60)
      (Nat.succ_ne_zero _) rfl ?_ ?_ hm
    · rw [htime]
      decide
    · rw [selectionInterval_eq, htime]
      rfl
  refine ⟨(computeNextStakeModifier par m (forkLong par)).1, ?_⟩
  rw [newBlockIndex_child hm rfl, hgen]
  rfl

/-- Whatever the hash function, the index of the fork holds these entries. -/
theorem find_forkBlocks : ∃ modifier,
    (indexBlocks par forkBlocks).find 2 = some (forkCoin par) ∧
    (indexBlocks par forkBlocks).find 4 = some (forkLongTip par modifier) ∧
    (indexBlocks par forkBlocks).find 6 = some (forkShortTip par) := by
  have hash (h p t : ℕ) : (forkBlock h p t).hash = BitVec.ofNat 256 h := rfl
  have htCoin : (forkCoin par).getBlockTime = 60 := rfl
  have htShort : (forkShort par).getBlockTime = 61 := rfl
  have h1 : newBlockIndex par Dict.empty (forkBlock 1 0 0) = forkGenesis := rfl
  have h2 (m : BlockMap) (hm : m.find 1 = some forkGenesis) :
      newBlockIndex par m (forkBlock 2 1 60) = forkCoin par :=
    newBlockIndex_child hm
      (show computeNextStakeModifier par m forkGenesis = (par.literal, true) from rfl)
  have h3 (m : BlockMap) (hm : m.find 2 = some (forkCoin par)) :
      newBlockIndex par m (forkBlock 3 2 3060) = forkLong par :=
    newBlockIndex_child hm
      (next_in_minute par (b := forkCoin par) (Nat.succ_ne_zero _) rfl (by omega))
  have h5 (m : BlockMap) (hm : m.find 2 = some (forkCoin par)) :
      newBlockIndex par m (forkBlock 5 2 61) = forkShort par :=
    newBlockIndex_child hm
      (next_in_minute par (b := forkCoin par) (Nat.succ_ne_zero _) rfl (by omega))
  have h6 (m : BlockMap) (hm : m.find 5 = some (forkShort par)) :
      newBlockIndex par m (forkBlock 6 5 62) = forkShortTip par :=
    newBlockIndex_child hm
      (next_in_minute par (b := forkShort par) (Nat.succ_ne_zero _) rfl (by omega))
  obtain ⟨modifier, h4⟩ := new_forkLongTip par
    (m := indexBlocks par [forkBlock 1 0 0, forkBlock 2 1 60, forkBlock 3 2 3060])
    (by simp [indexBlocks, addToBlockIndex, Dict.find_insert, hash, h1, h2, h3])
  refine ⟨modifier, ?_, ?_, ?_⟩
  · simp [indexBlocks, forkBlocks, addToBlockIndex, Dict.find_insert, hash, h1, h2]
  · simp only [indexBlocks, forkBlocks, List.foldl, addToBlockIndex] at h4 ⊢
    simp [Dict.find_insert, hash]
    exact h4
  · simp [indexBlocks, forkBlocks, addToBlockIndex, Dict.find_insert, hash, h1, h2, h5, h6]

theorem laterModifierBlock_forkLongTip (modifier : BitVec 64) :
    laterModifierBlock (CChain.ofTip (forkLongTip par modifier)) (forkCoin par) =
      some (forkLongTip par modifier) := by
  have hdrop : (forkLongTip par modifier).branch.drop 2 =
      [forkLong par, forkLongTip par modifier] := rfl
  have hLong : lateModifier (forkCoin par) (forkLong par) = false := rfl
  have hTip : lateModifier (forkCoin par) (forkLongTip par modifier) = true := by
    have htCoin : (forkCoin par).getBlockTime = 60 := rfl
    have htTip : (forkLongTip par modifier).getBlockTime = 3120 := rfl
    simp only [lateModifier, selectionInterval_eq, htCoin, htTip]
    rfl
  simp only [laterModifierBlock, CChain.vChain_ofTip]
  rw [show (forkCoin par).height + 1 = 2 from rfl, hdrop]
  simp only [List.find?_cons, hLong, hTip]

theorem laterModifierBlock_above_forkLongTip :
    laterModifierBlock (CChain.ofTip (.child (forkLongTip ⟨fun _ => 0, 0, 0⟩ 1)
      (forkInfo 7 3180 true 2))) (forkCoin ⟨fun _ => 0, 0, 0⟩) =
        some (forkLongTip ⟨fun _ => 0, 0, 0⟩ 1) :=
  laterModifierBlock_of_le (laterModifierBlock_forkLongTip _ 1) (CChain.tip_ofTip _)
    (Lineage.parent_le _ _)

theorem laterModifierBlock_forkShortTip :
    laterModifierBlock (CChain.ofTip (forkShortTip par)) (forkCoin par) = none := rfl

/-- A node on the short branch finds no modifier for a stake on the long one. -/
theorem not_stakeCheckOnBranch : ¬∃ par, StakeCheckOnBranch par := by
  rintro ⟨par, h⟩
  obtain ⟨modifier, hCoin, hLong, hShort⟩ := find_forkBlocks par
  have hle : forkCoin par ≤ forkLongTip par modifier :=
    (Lineage.parent_le _ _).trans (Lineage.parent_le _ _)
  let coinTx := (forkBlock 2 1 60).vtx.headD .null
  have helig : Eligible (forkBlock 2 1 60) coinTx ⟨1002, 0⟩ 3720 :=
    ⟨by decide, by decide, by decide⟩
  have heq := h forkBlocks (forkCoin par) (forkLongTip par modifier) (forkLongTip par modifier)
    (forkShortTip par) (forkBlock 2 1 60) coinTx ⟨1002, 0⟩ 0x1e0fffff 3720
    (by simp [forkBlocks]) List.mem_cons_self hCoin hLong hLong hShort hle
  rw [checkStakeKernelHash_eq hCoin _ _ _ helig, checkStakeKernelHash_eq hCoin _ _ _ helig,
    laterModifierBlock_forkLongTip, laterModifierBlock_forkShortTip] at heq
  cases congrArg KernelResult.hashProofOfStake (Option.some.inj heq)

/-- A hash function that keeps the modifier apart: the first eight bytes of its input. -/
def prefixHash (bs : Bytes) : Uint256 := BitVec.ofNat 256 (LittleEndian.decode (bs.take 8))

theorem stakeHash_prefixHash_injective (nTimeTx : BitVec 32) (prevout : COutPoint)
    (nTimeBlockFrom : BitVec 32) :
    Function.Injective fun m => stakeHash prefixHash nTimeTx m prevout nTimeBlockFrom := by
  have hdecode (m : BitVec 64) :
      (stakeHash prefixHash nTimeTx m prevout nTimeBlockFrom).toNat = m.toNat := by
    have hm : m.toNat < 256 ^ 8 := m.isLt
    simp only [stakeHash, prefixHash, List.append_assoc]
    rw [List.take_append_of_le_length (by simp), List.take_of_length_le (by simp),
      LittleEndian.decode_encode_of_lt hm, BitVec.toNat_ofNat, Nat.mod_eq_of_lt (by omega)]
  intro m m' h
  have := congrArg BitVec.toNat h
  simp only [hdecode] at this
  exact BitVec.eq_of_toNat_eq this

theorem kernel_agrees_on_fork : ∃ modifier,
    let par : Params := ⟨prefixHash, 0, 0⟩
    let idx := indexBlocks par forkBlocks
    let from' := forkBlock 2 1 60
    let coinTx := (forkBlock 2 1 60).vtx.headD .null
    let long := CChain.ofTip (forkLongTip par modifier)
    let short := CChain.ofTip (forkShortTip par)
    (checkStakeKernelHash prefixHash idx long 0x1e0fffff from' coinTx ⟨1002, 0⟩ 3720 0 true =
      checkStakeKernelHash prefixHash idx short 0x1e0fffff from' coinTx ⟨1002, 0⟩ 3720 0 true ↔
      (Eligible from' coinTx ⟨1002, 0⟩ 3720 → SameLaterModifier long short (forkCoin par))) ∧
    ∀ P, forkCoin par ≤ P →
      ((getKernelStakeModifier idx long from'.hash).map (·.nStakeModifier) =
          branchModifier (forkCoin par) P ↔
        SameLaterModifier long (CChain.ofTip P) (forkCoin par)) := by
  obtain ⟨modifier, hCoin, -, -⟩ := find_forkBlocks ⟨prefixHash, 0, 0⟩
  exact ⟨modifier, kernel_agrees_iff_sameLaterModifier hCoin _ _ _ _ _ _ _
    (stakeHash_prefixHash_injective _ _ _)⟩

end Fork

end Scrypta.Kernel
