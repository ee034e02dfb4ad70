import Mathlib.Data.List.Induction
import Scrypta.StakeBranch

/-! Stake modifiers in two runs of the program. A run may be interrupted: a later process reads
the index that an earlier one wrote, with its modifiers and without the checksums. -/

namespace Scrypta.Kernel

open LittleEndian

/-! What the modifier after a block depends on. -/

section Congruence

variable {par par' : Params} {m m' : BlockMap}

theorem selectLoop_congr (hHash : par.Hash = par'.Hash) {items : List (ℤ × Uint256)}
    (hfind : ∀ item ∈ items, m.find item.2 = m'.find item.2) (fModifierV2 : Bool)
    (mapSelectedBlocks : List Uint256) (stop : ℤ) (prev : BitVec 64)
    (best : Option (CBlockIndex × Uint256)) :
    selectLoop par m fModifierV2 mapSelectedBlocks stop prev items best =
      selectLoop par' m' fModifierV2 mapSelectedBlocks stop prev items best := by
  induction items generalizing best with
  | nil => rfl
  | cons item items ih =>
    have hrest := ih fun other hother => hfind other (List.mem_cons_of_mem _ hother)
    have hhash (pindex : CBlockIndex) :
        selectionHash par fModifierV2 prev pindex = selectionHash par' fModifierV2 prev pindex := by
      simp only [selectionHash, hHash]
    simp only [selectLoop, hfind item List.mem_cons_self, hrest, hhash]

theorem selectBlockFromCandidates_congr (hHash : par.Hash = par'.Hash)
    (hupgrade : par.modifierUpgradeBlock = par'.modifierUpgradeBlock)
    {items : List (ℤ × Uint256)} (hfind : ∀ item ∈ items, m.find item.2 = m'.find item.2)
    (mapSelectedBlocks : List Uint256) (stop : ℤ) (prev : BitVec 64) :
    selectBlockFromCandidates par m items mapSelectedBlocks stop prev =
      selectBlockFromCandidates par' m' items mapSelectedBlocks stop prev := by
  have hfirst : (items.head?.bind fun item => m.find item.2) =
      items.head?.bind fun item => m'.find item.2 := by
    cases items with
    | nil => rfl
    | cons item items => exact hfind item List.mem_cons_self
  simp only [selectBlockFromCandidates, hfirst, hupgrade, selectLoop_congr hHash hfind]

theorem exists_le_of_mem_sortedCandidates {p : CBlockIndex} {start : ℤ} {item : ℤ × Uint256}
    (h : item ∈ sortedCandidates p start) : ∃ a, a ≤ p ∧ item.2 = a.getBlockHash := by
  rw [sortedCandidates, List.mem_insertionSort, List.mem_map] at h
  obtain ⟨a, ha, rfl⟩ := h
  exact ⟨a, List.takeWhile_subset _ (List.mem_reverse.mp ha), rfl⟩

/-- The modifier depends on the line of the block and, above the first block, not on the
literal. -/
theorem computeNextStakeModifier_congr (hHash : par.Hash = par'.Hash)
    (hupgrade : par.modifierUpgradeBlock = par'.modifierUpgradeBlock) {p : CBlockIndex}
    (hliteral : p.height = 0 → par.literal = par'.literal)
    (hfind : ∀ a, a ≤ p → m.find a.getBlockHash = m'.find a.getBlockHash) :
    computeNextStakeModifier par m p = computeNextStakeModifier par' m' p := by
  unfold computeNextStakeModifier
  split
  · next hzero => rw [hliteral hzero]
  · split
    · rfl
    · split
      · rfl
      · have hround (start : ℤ) (prev : BitVec 64) :
            selectionRound par m (sortedCandidates p start) prev =
              selectionRound par' m' (sortedCandidates p start) prev := by
          funext r nRound
          have hitems : ∀ item ∈ sortedCandidates p start, m.find item.2 = m'.find item.2 := by
            intro item hitem
            obtain ⟨a, ha, hhash⟩ := exists_le_of_mem_sortedCandidates hitem
            rw [hhash]
            exact hfind a ha
          simp only [selectionRound, selectBlockFromCandidates_congr hHash hupgrade hitems]
        simp only [hround]

theorem checkStakeKernelHash_congr {Hash : Bytes → Uint256} {c c' : CChain} {blockFrom : CBlock}
    (h : getKernelStakeModifier m' c' blockFrom.getHash =
      getKernelStakeModifier m c blockFrom.getHash) (nBits : BitVec 32) (txPrev : CTransaction)
    (prevout : COutPoint) (nTimeTx nHashDrift : BitVec 32) (fCheck : Bool) :
    checkStakeKernelHash Hash m' c' nBits blockFrom txPrev prevout nTimeTx nHashDrift fCheck =
      checkStakeKernelHash Hash m c nBits blockFrom txPrev prevout nTimeTx nHashDrift fCheck := by
  unfold checkStakeKernelHash
  simp only [h]

end Congruence

/-! Runs. -/

/-- A call of `AddToBlockIndex`: the process that makes it, and what `mapProofOfStake` holds for
the block. -/
structure Addition where
  block : CBlock
  process : ℕ
  hashProofOfStake : Uint256

/-- A run of the program: for each of its processes the address of the literal, and the blocks in
the order in which they enter the index. -/
structure Run where
  literal : ℕ → BitVec 64
  additions : List Addition

/-- What a block header and its kind say. -/
structure BlockHeader where
  hash : Uint256
  nTime : BitVec 32
  nBits : BitVec 32
  fProofOfStake : Bool
  deriving DecidableEq, Repr

def headerOf (a : BlockInfo) : BlockHeader := ⟨a.hash, a.nTime, a.nBits, a.fProofOfStake⟩

def blockHeader (block : CBlock) : BlockHeader :=
  ⟨block.hash, block.nTime, block.nBits, block.isProofOfStake⟩

/-- The chain of headers under an index entry. -/
def headers (b : CBlockIndex) : Lineage BlockHeader := b.map headerOf

/-- The first call that adds a block with the hash; later ones find the entry. -/
def firstAddition (additions : List Addition) (hash : Uint256) : Option Addition :=
  additions.find? fun a => a.block.hash == hash

section Index

variable (Hash : Bytes → Uint256) (upgrade : ℕ) (literal : ℕ → BitVec 64)

def addBlock (m : BlockMap) (a : Addition) : BlockMap :=
  addToBlockIndex ⟨Hash, literal a.process, upgrade⟩ m a.block

/-- The index at the end of the run. -/
def indexAdditions (additions : List Addition) : BlockMap :=
  additions.foldl (addBlock Hash upgrade literal) Dict.empty

def addHeader (m : Dict Uint256 (Lineage BlockHeader)) (a : Addition) :
    Dict Uint256 (Lineage BlockHeader) :=
  m.insert a.block.hash (match m.find a.block.hashPrevBlock with
    | none => .root (blockHeader a.block)
    | some p => .child p (blockHeader a.block))

/-- The chains of headers in the index. -/
def indexHeaders (additions : List Addition) : Dict Uint256 (Lineage BlockHeader) :=
  additions.foldl addHeader Dict.empty

variable {Hash upgrade literal}

theorem headers_newBlockIndex {par : Params} {m : BlockMap} (block : CBlock) :
    headers (newBlockIndex par m block) =
      match (m.find block.hashPrevBlock).map headers with
      | none => .root (blockHeader block)
      | some p => .child p (blockHeader block) := by
  unfold newBlockIndex
  cases m.find block.hashPrevBlock <;> rfl

/-- The headers of the index depend neither on the hash function nor on the literals. -/
theorem find_indexHeaders (additions : List Addition) (h : Uint256) :
    ((indexAdditions Hash upgrade literal additions).find h).map headers =
      (indexHeaders additions).find h := by
  induction additions using List.reverseRecOn generalizing h with
  | nil => rfl
  | append_singleton additions a ih =>
    simp only [indexAdditions, indexHeaders, List.foldl_append, List.foldl_cons, List.foldl_nil]
      at ih ⊢
    rw [addBlock, addToBlockIndex, addHeader, Dict.find_insert, Dict.find_insert, ← ih, ← ih, ← ih]
    split
    · rw [Option.map_some, ← @headers_newBlockIndex ⟨Hash, literal a.process, upgrade⟩]
      cases (List.foldl (addBlock Hash upgrade literal) Dict.empty additions).find
        a.block.hash <;> rfl
    · rfl

theorem indexAdditions_concat (additions : List Addition) (a : Addition) :
    indexAdditions Hash upgrade literal (additions ++ [a]) =
      (indexAdditions Hash upgrade literal additions).insert a.block.hash
        (newBlockIndex ⟨Hash, literal a.process, upgrade⟩
          (indexAdditions Hash upgrade literal additions) a.block) := by
  simp only [indexAdditions, List.foldl_append, List.foldl_cons, List.foldl_nil]
  rfl

variable (Hash upgrade literal) in
/-- Every entry lies under its hash over an entry, and its modifier was computed from its parent by
the process that added it. -/
structure Derived (additions : List Addition) (m : BlockMap) : Prop where
  added : ∀ h b, m.find h = some b → ∃ a, firstAddition additions h = some a
  hash : ∀ h (b : CBlockIndex), m.find h = some b → b.getBlockHash = h
  parent : ∀ h (p : CBlockIndex) i, m.find h = some (.child p i) → m.find p.getBlockHash = some p
  root : ∀ h i, m.find h = some (.root i) → i.nStakeModifier = 0 ∧
    i.fGeneratedStakeModifier = false
  modifier : ∀ h (p : CBlockIndex) i, m.find h = some (.child p i) → ∃ a m',
    firstAddition additions h = some a ∧
    (∀ x : CBlockIndex, x ≤ p → m'.find x.getBlockHash = some x) ∧
    (i.nStakeModifier, i.fGeneratedStakeModifier) =
      computeNextStakeModifier ⟨Hash, literal a.process, upgrade⟩ m' p

section Invariant

variable {additions : List Addition} {m : BlockMap}

theorem Derived.find_of_le (h : Derived Hash upgrade literal additions m) {b x : CBlockIndex}
    (hb : m.find b.getBlockHash = some b) (hx : x ≤ b) : m.find x.getBlockHash = some x := by
  induction b with
  | root i =>
    obtain rfl := Lineage.le_root.mp hx
    exact hb
  | child p i ih =>
    rcases Lineage.le_child.mp hx with rfl | hxp
    · exact hb
    · exact ih (h.parent _ p i hb) hxp

theorem firstAddition_append {a : Addition} {h : Uint256} {other : Addition}
    (hfirst : firstAddition additions h = some other) :
    firstAddition (additions ++ [a]) h = some other := by
  rw [firstAddition, List.find?_append]
  rw [firstAddition] at hfirst
  rw [hfirst]
  rfl

theorem firstAddition_concat_self {a : Addition}
    (hnone : firstAddition additions a.block.hash = none) :
    firstAddition (additions ++ [a]) a.block.hash = some a := by
  rw [firstAddition, List.find?_append]
  rw [firstAddition] at hnone
  rw [hnone]
  simp

theorem Derived.append (h : Derived Hash upgrade literal additions m) (a : Addition) :
    Derived Hash upgrade literal (additions ++ [a]) m where
  added k b hb := by
    obtain ⟨other, hother⟩ := h.added k b hb
    exact ⟨other, firstAddition_append hother⟩
  hash := h.hash
  parent := h.parent
  root := h.root
  modifier k p i hi := by
    obtain ⟨other, m', hother, hm', hnext⟩ := h.modifier k p i hi
    exact ⟨other, m', firstAddition_append hother, hm', hnext⟩

/-- A new entry is derived from the index that it enters. -/
theorem Derived.insert (h : Derived Hash upgrade literal additions m) {a : Addition}
    (hnew : m.find a.block.hash = none)
    (hfirst : firstAddition additions a.block.hash = none) :
    Derived Hash upgrade literal (additions ++ [a]) (m.insert a.block.hash
      (newBlockIndex ⟨Hash, literal a.process, upgrade⟩ m a.block)) := by
  have hold := h.append a
  have hself := firstAddition_concat_self hfirst
  have hfind := Dict.find_insert_of_none
    (newBlockIndex ⟨Hash, literal a.process, upgrade⟩ m a.block) hnew
  have hkeep : ∀ (x : CBlockIndex) k, m.find k = some x → (m.insert a.block.hash
      (newBlockIndex ⟨Hash, literal a.process, upgrade⟩ m a.block)).find k = some x :=
    fun x k hx => Dict.find_insert_of_some _ hx
  constructor
  · intro k b hb
    rw [hfind] at hb
    split at hb
    · next hk => exact ⟨a, hk ▸ hself⟩
    · exact hold.added k b hb
  · intro k b hb
    rw [hfind] at hb
    split at hb
    · next hk =>
      obtain rfl := Option.some.inj hb
      rw [hk]
      unfold newBlockIndex
      cases m.find a.block.hashPrevBlock <;> rfl
    · exact hold.hash k b hb
  · intro k p i hi
    rw [hfind] at hi
    split at hi
    · unfold newBlockIndex at hi
      cases hp : m.find a.block.hashPrevBlock with
      | none => simp [hp] at hi
      | some pprev =>
        simp only [hp, Option.some.injEq, Lineage.child.injEq] at hi
        obtain ⟨rfl, -⟩ := hi
        exact hkeep _ _ (by rw [h.hash _ _ hp, hp])
    · exact hkeep _ _ (hold.parent k p i hi)
  · intro k i hi
    rw [hfind] at hi
    split at hi
    · unfold newBlockIndex at hi
      cases hp : m.find a.block.hashPrevBlock with
      | none =>
        simp only [hp, Option.some.injEq, Lineage.root.injEq] at hi
        obtain rfl := hi
        exact ⟨rfl, rfl⟩
      | some pprev => simp [hp] at hi
    · exact hold.root k i hi
  · intro k p i hi
    rw [hfind] at hi
    split at hi
    · next hk =>
      unfold newBlockIndex at hi
      cases hp : m.find a.block.hashPrevBlock with
      | none => simp [hp] at hi
      | some pprev =>
        simp only [hp, Option.some.injEq, Lineage.child.injEq] at hi
        obtain ⟨rfl, rfl⟩ := hi
        have hpprev : m.find (CBlockIndex.getBlockHash pprev) = some pprev := by
          rw [h.hash _ _ hp, hp]
        exact ⟨a, m, hk ▸ hself, fun x hx => h.find_of_le hpprev hx, rfl⟩
    · exact hold.modifier k p i hi

theorem firstAddition_eq_none {h : Uint256}
    (hnone : (indexAdditions Hash upgrade literal additions).find h = none) :
    firstAddition additions h = none := by
  induction additions using List.reverseRecOn with
  | nil => rfl
  | append_singleton additions a ih =>
    rw [indexAdditions_concat, Dict.find_insert] at hnone
    split at hnone
    · cases hnone
    · next hne =>
      have hold := ih hnone
      rw [firstAddition] at hold ⊢
      rw [List.find?_append, hold]
      simp [Ne.symm hne]

theorem derived_indexAdditions (additions : List Addition) :
    Derived Hash upgrade literal additions (indexAdditions Hash upgrade literal additions) := by
  induction additions using List.reverseRecOn with
  | nil =>
    have hempty (k : Uint256) (b : CBlockIndex) :
        (indexAdditions Hash upgrade literal []).find k ≠ some b := by
      simp [indexAdditions]
    constructor
    · exact fun k b hb => absurd hb (hempty k b)
    · exact fun k b hb => absurd hb (hempty k b)
    · exact fun k p i hi => absurd hi (hempty k _)
    · exact fun k i hi => absurd hi (hempty k _)
    · exact fun k p i hi => absurd hi (hempty k _)
  | append_singleton additions a ih =>
    rw [indexAdditions_concat]
    cases hnew : (indexAdditions Hash upgrade literal additions).find a.block.hash with
    | none => exact ih.insert hnew (firstAddition_eq_none hnew)
    | some b =>
      rw [Dict.insert_of_some _ hnew]
      exact ih.append a

end Invariant

end Index

/-! The circumstances of a run that the records of a block depend on. -/

namespace Run

/-- The process that adds the block. -/
def processAt (r : Run) (hash : Uint256) : ℕ :=
  ((firstAddition r.additions hash).map Addition.process).getD 0

def literalAt (r : Run) (hash : Uint256) : BitVec 64 := r.literal (r.processAt hash)

def proofAt (r : Run) (hash : Uint256) : Uint256 :=
  ((firstAddition r.additions hash).map Addition.hashProofOfStake).getD 0

def index (Hash : Bytes → Uint256) (upgrade : ℕ) (r : Run) : BlockMap :=
  indexAdditions Hash upgrade r.literal r.additions

end Run

def nFlags (b : CBlockIndex) : BitVec 32 :=
  (if b.isProofOfStake then 1 else 0) ||| (if b.getStakeEntropyBit then 2 else 0) |||
    (if b.generatedStakeModifier then 4 else 0)

/-- `GetStakeModifierChecksum` of a block with a parent, whose checksum is the first argument
after the hash function. -/
def getStakeModifierChecksum (Hash : Bytes → Uint256) (nStakeModifierChecksumPrev : BitVec 32)
    (hashProofOfStake : Uint256) (b : CBlockIndex) : BitVec 32 :=
  (Hash (encode 4 nStakeModifierChecksumPrev.toNat ++ encode 4 (nFlags b).toNat ++
    encode 32 hashProofOfStake.toNat ++ encode 8 b.nStakeModifier.toNat) >>> (256 - 32)).setWidth 32

/-- The checksum that a block is given. It is not written to the database, so a process finds 0
at a parent that it did not add itself. The first block has none. -/
def nStakeModifierChecksum (Hash : Bytes → Uint256) (r : Run) : CBlockIndex → BitVec 32
  | .root _ => 0
  | .child p i =>
    getStakeModifierChecksum Hash
      (if r.processAt (CBlockIndex.getBlockHash p) = r.processAt i.hash then
        nStakeModifierChecksum Hash r p else 0)
      (if i.fProofOfStake then r.proofAt i.hash else 0) (.child p i)

/-- What `AddToBlockIndex` assigns to a block. -/
def stakeRecord (Hash : Bytes → Uint256) (r : Run) (b : CBlockIndex) :
    BitVec 64 × Bool × BitVec 32 :=
  (b.nStakeModifier, b.generatedStakeModifier, nStakeModifierChecksum Hash r b)

/-- Whatever the hash function, the blocks of the chain are given the same in both runs. -/
def SameRecords (upgrade : ℕ) (r₁ r₂ : Run) (chain : Lineage BlockHeader) : Prop :=
  ∀ Hash b₁ b₂, (r₁.index Hash upgrade).find chain.label.hash = some b₁ → headers b₁ = chain →
    (r₂.index Hash upgrade).find chain.label.hash = some b₂ → headers b₂ = chain →
    b₁.branch.map (stakeRecord Hash r₁) = b₂.branch.map (stakeRecord Hash r₂)

/-- The literal lies at the same address when the second block is added, the proofs of the stakes
are recorded the same, and the same blocks are added by the process that added their parent. -/
structure SameCircumstances (r₁ r₂ : Run) (chain : Lineage BlockHeader) : Prop where
  literal : ∀ x ≤ chain, x.height = 1 → r₁.literalAt x.label.hash = r₂.literalAt x.label.hash
  proof : ∀ x ≤ chain, 0 < x.height → x.label.fProofOfStake = true →
    r₁.proofAt x.label.hash = r₂.proofAt x.label.hash
  process : ∀ p i, .child p i ≤ chain → 0 < p.height →
    (r₁.processAt p.label.hash = r₁.processAt i.hash ↔
      r₂.processAt p.label.hash = r₂.processAt i.hash)

section Agreement

variable {Hash : Bytes → Uint256} {upgrade : ℕ} {r r₁ r₂ : Run}

theorem derived (Hash : Bytes → Uint256) (upgrade : ℕ) (r : Run) :
    Derived Hash upgrade r.literal r.additions (r.index Hash upgrade) :=
  derived_indexAdditions r.additions

/-- The modifier of the second block is the literal of the process that adds it. -/
theorem modifier_of_height_one {h : Uint256} {p : CBlockIndex} {i : BlockInfo}
    (hb : (r.index Hash upgrade).find h = some (.child p i)) (hp : p.height = 0) :
    i.nStakeModifier = r.literalAt h := by
  obtain ⟨a, m', ha, -, hnext⟩ := (derived Hash upgrade r).modifier h p i hb
  rw [computeNextStakeModifier, if_pos hp] at hnext
  rw [Run.literalAt, Run.processAt, ha]
  exact congrArg Prod.fst hnext

theorem info_eq {i₁ i₂ : BlockInfo} (hheader : headerOf i₁ = headerOf i₂)
    (hnext : (i₁.nStakeModifier, i₁.fGeneratedStakeModifier) =
      (i₂.nStakeModifier, i₂.fGeneratedStakeModifier)) : i₁ = i₂ := by
  cases i₁
  cases i₂
  simp only [headerOf, BlockHeader.mk.injEq, Prod.mk.injEq] at hheader hnext
  obtain ⟨rfl, rfl, rfl, rfl⟩ := hheader
  obtain ⟨rfl, rfl⟩ := hnext
  rfl

theorem hash_of_headers {b : CBlockIndex} {chain : Lineage BlockHeader} (h : headers b = chain) :
    CBlockIndex.getBlockHash b = chain.label.hash := by
  rw [← h, headers, Lineage.label_map]
  rfl

/-- Blocks with the same headers that found the same literal have the same entry. -/
theorem entry_eq {chain : Lineage BlockHeader} {b₁ b₂ : CBlockIndex}
    (hliteral : ∀ x ≤ chain, x.height = 1 →
      r₁.literalAt x.label.hash = r₂.literalAt x.label.hash)
    (hb₁ : (r₁.index Hash upgrade).find chain.label.hash = some b₁) (h₁ : headers b₁ = chain)
    (hb₂ : (r₂.index Hash upgrade).find chain.label.hash = some b₂) (h₂ : headers b₂ = chain) :
    b₁ = b₂ := by
  induction chain generalizing b₁ b₂ with
  | root x =>
    obtain ⟨i₁, rfl, hi₁⟩ := Lineage.map_eq_root h₁
    obtain ⟨i₂, rfl, hi₂⟩ := Lineage.map_eq_root h₂
    obtain ⟨hmod₁, hgen₁⟩ := (derived Hash upgrade r₁).root _ _ hb₁
    obtain ⟨hmod₂, hgen₂⟩ := (derived Hash upgrade r₂).root _ _ hb₂
    rw [info_eq (hi₁.trans hi₂.symm) (by rw [hmod₁, hgen₁, hmod₂, hgen₂])]
  | child q x ih =>
    obtain ⟨p₁, i₁, rfl, hp₁, hi₁⟩ := Lineage.map_eq_child h₁
    obtain ⟨p₂, i₂, rfl, hp₂, hi₂⟩ := Lineage.map_eq_child h₂
    have hparent₁ := (derived Hash upgrade r₁).parent _ p₁ i₁ hb₁
    have hparent₂ := (derived Hash upgrade r₂).parent _ p₂ i₂ hb₂
    obtain rfl : p₁ = p₂ := by
      refine ih (fun y hy => hliteral y (hy.trans (Lineage.parent_le q x))) ?_ hp₁ ?_ hp₂
      · rw [← hash_of_headers hp₁, hparent₁]
      · rw [← hash_of_headers hp₂, hparent₂]
    obtain ⟨a₁, m₁, ha₁, hm₁, hnext₁⟩ := (derived Hash upgrade r₁).modifier _ p₁ i₁ hb₁
    obtain ⟨a₂, m₂, ha₂, hm₂, hnext₂⟩ := (derived Hash upgrade r₂).modifier _ p₁ i₂ hb₂
    have hsame : computeNextStakeModifier ⟨Hash, r₁.literal a₁.process, upgrade⟩ m₁ p₁ =
        computeNextStakeModifier ⟨Hash, r₂.literal a₂.process, upgrade⟩ m₂ p₁ := by
      refine @computeNextStakeModifier_congr ⟨Hash, r₁.literal a₁.process, upgrade⟩
        ⟨Hash, r₂.literal a₂.process, upgrade⟩ m₁ m₂ rfl rfl p₁ (fun hzero => ?_) fun y hy => ?_
      · have hq : q.height = 0 := by rw [← hp₁, Lineage.height_map, hzero]
        have hlit := hliteral _ le_rfl (by rw [Lineage.height_child, hq])
        simpa only [Run.literalAt, Run.processAt, ha₁, ha₂, Option.map_some, Option.getD_some]
          using hlit
      · rw [hm₁ y hy, hm₂ y hy]
    rw [info_eq (hi₁.trans hi₂.symm) (by rw [hnext₁, hnext₂, hsame])]

theorem SameCircumstances.mono {x chain : Lineage BlockHeader}
    (h : SameCircumstances r₁ r₂ chain) (hx : x ≤ chain) : SameCircumstances r₁ r₂ x :=
  ⟨fun y hy => h.literal y (hy.trans hx), fun y hy => h.proof y (hy.trans hx),
    fun p i hi => h.process p i (hi.trans hx)⟩

theorem nStakeModifierChecksum_congr {b : CBlockIndex} (h : SameCircumstances r₁ r₂ (headers b)) :
    nStakeModifierChecksum Hash r₁ b = nStakeModifierChecksum Hash r₂ b := by
  induction b with
  | root i => rfl
  | child p i ih =>
    have hle : headers p ≤ headers (.child p i) := Lineage.parent_le _ _
    have hp := ih (h.mono hle)
    have hproof : (if i.fProofOfStake then r₁.proofAt i.hash else 0) =
        if i.fProofOfStake then r₂.proofAt i.hash else 0 := by
      cases hstake : i.fProofOfStake with
      | false => rfl
      | true => exact h.proof _ le_rfl (Nat.succ_pos _) hstake
    have hprev : (if r₁.processAt (CBlockIndex.getBlockHash p) = r₁.processAt i.hash then
          nStakeModifierChecksum Hash r₁ p else 0) =
        if r₂.processAt (CBlockIndex.getBlockHash p) = r₂.processAt i.hash then
          nStakeModifierChecksum Hash r₂ p else 0 := by
      cases p with
      | root j => simp [nStakeModifierChecksum]
      | child q j =>
        have hsame : r₁.processAt j.hash = r₁.processAt i.hash ↔
            r₂.processAt j.hash = r₂.processAt i.hash := h.process _ _ le_rfl (Nat.succ_pos _)
        have hj : CBlockIndex.getBlockHash (.child q j) = j.hash := rfl
        rw [hp, hj]
        by_cases h₁ : r₁.processAt j.hash = r₁.processAt i.hash
        · rw [if_pos h₁, if_pos (hsame.mp h₁)]
        · rw [if_neg h₁, if_neg fun h₂ => h₁ (hsame.mpr h₂)]
    simp only [nStakeModifierChecksum, hproof, hprev]

/-- In the same circumstances a block is given the same in both runs. -/
theorem sameRecords_of_sameCircumstances {chain : Lineage BlockHeader}
    (h : SameCircumstances r₁ r₂ chain) : SameRecords upgrade r₁ r₂ chain := by
  intro Hash b₁ b₂ hb₁ h₁ hb₂ h₂
  obtain rfl := entry_eq h.literal hb₁ h₁ hb₂ h₂
  refine List.map_congr_left fun x hx => ?_
  have hle : headers x ≤ chain :=
    (Lineage.map_le_map (Lineage.le_iff_mem_branch.mpr hx)).trans_eq h₁
  rw [stakeRecord, stakeRecord, nStakeModifierChecksum_congr (h.mono hle)]

/-- The entry of a block on an indexed chain. -/
theorem exists_entry {chain x : Lineage BlockHeader} {t : CBlockIndex}
    (ht : (r.index Hash upgrade).find chain.label.hash = some t) (hh : headers t = chain)
    (hx : x ≤ chain) : ∃ b, (r.index Hash upgrade).find x.label.hash = some b ∧ headers b = x ∧
      (t.branch.map (stakeRecord Hash r))[x.height]? = some (stakeRecord Hash r b) := by
  obtain ⟨b, hb, hbx⟩ := Lineage.exists_le_of_le_map (hx.trans_eq hh.symm)
  have hheight : b.height = x.height := by rw [← hbx, Lineage.height_map]
  have htip : (r.index Hash upgrade).find (CBlockIndex.getBlockHash t) = some t := by
    rw [hash_of_headers hh, ht]
  refine ⟨b, ?_, hbx, ?_⟩
  · rw [← hash_of_headers hbx]
    exact (derived Hash upgrade r).find_of_le htip hb
  · rw [List.getElem?_map, Lineage.getElem?_branch.mpr ⟨hb, hheight⟩, Option.map_some]

/-- With the same records every block of the chain has entries with the same record. -/
theorem SameRecords.at {chain x : Lineage BlockHeader} (h : SameRecords upgrade r₁ r₂ chain)
    (hadded₁ : (indexHeaders r₁.additions).find chain.label.hash = some chain)
    (hadded₂ : (indexHeaders r₂.additions).find chain.label.hash = some chain) (hx : x ≤ chain)
    (Hash : Bytes → Uint256) : ∃ b₁ b₂ : CBlockIndex,
      ((r₁.index Hash upgrade).find x.label.hash = some b₁ ∧ headers b₁ = x) ∧
        ((r₂.index Hash upgrade).find x.label.hash = some b₂ ∧ headers b₂ = x) ∧
          stakeRecord Hash r₁ b₁ = stakeRecord Hash r₂ b₂ := by
  have hentry (r : Run) (hadded : (indexHeaders r.additions).find chain.label.hash = some chain) :
      ∃ t, (r.index Hash upgrade).find chain.label.hash = some t ∧ headers t = chain := by
    rw [← @find_indexHeaders Hash upgrade r.literal] at hadded
    exact Option.map_eq_some_iff.mp hadded
  obtain ⟨t₁, ht₁, hh₁⟩ := hentry r₁ hadded₁
  obtain ⟨t₂, ht₂, hh₂⟩ := hentry r₂ hadded₂
  obtain ⟨b₁, hb₁, hx₁, hrecord₁⟩ := exists_entry ht₁ hh₁ hx
  obtain ⟨b₂, hb₂, hx₂, hrecord₂⟩ := exists_entry ht₂ hh₂ hx
  rw [h Hash t₁ t₂ ht₁ hh₁ ht₂ hh₂] at hrecord₁
  exact ⟨b₁, b₂, ⟨hb₁, hx₁⟩, ⟨hb₂, hx₂⟩, Option.some.inj (hrecord₁.symm.trans hrecord₂)⟩

/-! Hash functions that tell the circumstances apart. -/

/-- A hash whose upper 32 bits are a small number. -/
def marked (c : ℕ) : Uint256 := BitVec.ofNat 256 c <<< (256 - 32)

theorem mark_one : ((marked 1 >>> (256 - 32)).setWidth 32 : BitVec 32) = 1 := by decide

theorem mark_two : ((marked 2 >>> (256 - 32)).setWidth 32 : BitVec 32) = 2 := by decide

/-- It tells whether the checksum of the parent was 0. -/
def restartHash (bytes : Bytes) : Uint256 :=
  if decode (bytes.take 4) = 0 then marked 1 else marked 2

/-- It tells whether the proof hash is the given one. -/
def proofHash (proof : Uint256) (bytes : Bytes) : Uint256 :=
  if (bytes.drop 8).take 32 = encode 32 proof.toNat then marked 1 else marked 2

theorem encode_inj {w x y : ℕ} (hx : x < 256 ^ w) (hy : y < 256 ^ w)
    (h : encode w x = encode w y) : x = y := by
  rw [← decode_encode_of_lt hx, ← decode_encode_of_lt hy, h]

theorem one_or_two_ne_zero (c : Prop) [Decidable c] : (if c then 1 else 2 : BitVec 32) ≠ 0 := by
  split <;> decide

theorem checksum_restartHash (prev : BitVec 32) (proof : Uint256) (b : CBlockIndex) :
    getStakeModifierChecksum restartHash prev proof b = if prev = 0 then 1 else 2 := by
  have hprev : decode (encode 4 prev.toNat) = prev.toNat := decode_encode_of_lt prev.isLt
  rw [getStakeModifierChecksum, restartHash, List.append_assoc, List.append_assoc,
    List.take_left' (length_encode _ _), hprev]
  by_cases hzero : prev = 0
  · rw [if_pos (by rw [hzero]; rfl), if_pos hzero, mark_one]
  · have hne : prev.toNat ≠ 0 := fun h => hzero (BitVec.eq_of_toNat_eq h)
    rw [if_neg hne, if_neg hzero, mark_two]

theorem checksum_proofHash (proof' : Uint256) (prev : BitVec 32) (proof : Uint256)
    (b : CBlockIndex) :
    getStakeModifierChecksum (proofHash proof') prev proof b = if proof = proof' then 1 else 2 := by
  have hlength : (encode 4 prev.toNat ++ encode 4 (nFlags b).toNat).length = 8 := by simp
  rw [getStakeModifierChecksum, proofHash, List.append_assoc, List.drop_left' hlength,
    List.take_left' (length_encode _ _)]
  by_cases hproof : proof = proof'
  · rw [if_pos (by rw [hproof]), if_pos hproof, mark_one]
  · have hne : encode 32 proof.toNat ≠ encode 32 proof'.toNat := fun h =>
      hproof (BitVec.eq_of_toNat_eq (encode_inj proof.isLt proof'.isLt h))
    rw [if_neg hne, if_neg hproof, mark_two]

/-- What equal records say of the literal, of the proofs and of the processes. -/
theorem SameRecords.literal {chain : Lineage BlockHeader} (h : SameRecords upgrade r₁ r₂ chain)
    (hadded₁ : (indexHeaders r₁.additions).find chain.label.hash = some chain)
    (hadded₂ : (indexHeaders r₂.additions).find chain.label.hash = some chain)
    {x : Lineage BlockHeader} (hx : x ≤ chain) (hheight : x.height = 1) :
    r₁.literalAt x.label.hash = r₂.literalAt x.label.hash := by
  obtain ⟨b₁, b₂, ⟨hb₁, hx₁⟩, ⟨hb₂, hx₂⟩, hrecord⟩ := h.at hadded₁ hadded₂ hx fun _ => 0
  cases x with
  | root i => cases hheight
  | child q i =>
    have hq : q.height = 0 := Nat.succ.inj hheight
    obtain ⟨p₁, i₁, rfl, hp₁, -⟩ := Lineage.map_eq_child hx₁
    obtain ⟨p₂, i₂, rfl, hp₂, -⟩ := Lineage.map_eq_child hx₂
    have hmod₁ := modifier_of_height_one hb₁ (by rw [← Lineage.height_map, hp₁, hq])
    have hmod₂ := modifier_of_height_one hb₂ (by rw [← Lineage.height_map, hp₂, hq])
    rw [← hmod₁, ← hmod₂]
    exact congrArg Prod.fst hrecord

theorem SameRecords.proof {chain : Lineage BlockHeader} (h : SameRecords upgrade r₁ r₂ chain)
    (hadded₁ : (indexHeaders r₁.additions).find chain.label.hash = some chain)
    (hadded₂ : (indexHeaders r₂.additions).find chain.label.hash = some chain)
    {x : Lineage BlockHeader} (hx : x ≤ chain) (hheight : 0 < x.height)
    (hstake : x.label.fProofOfStake = true) :
    r₁.proofAt x.label.hash = r₂.proofAt x.label.hash := by
  obtain ⟨b₁, b₂, ⟨-, hx₁⟩, ⟨-, hx₂⟩, hrecord⟩ :=
    h.at hadded₁ hadded₂ hx (proofHash (r₁.proofAt x.label.hash))
  cases x with
  | root i => exact absurd hheight (lt_irrefl 0)
  | child q i =>
    obtain ⟨p₁, i₁, rfl, -, hi₁⟩ := Lineage.map_eq_child hx₁
    obtain ⟨p₂, i₂, rfl, -, hi₂⟩ := Lineage.map_eq_child hx₂
    obtain ⟨hhash₁, hstake₁⟩ : i₁.hash = i.hash ∧ i₁.fProofOfStake = true := by
      rw [← hi₁] at hstake ⊢
      exact ⟨rfl, hstake⟩
    obtain ⟨hhash₂, hstake₂⟩ : i₂.hash = i.hash ∧ i₂.fProofOfStake = true := by
      rw [← hi₂] at hstake ⊢
      exact ⟨rfl, hstake⟩
    have hsum := congrArg (fun r : BitVec 64 × Bool × BitVec 32 => r.2.2) hrecord
    simp only [stakeRecord, nStakeModifierChecksum, checksum_proofHash, hhash₁, hstake₁, hhash₂,
      hstake₂, if_true, Lineage.label] at hsum
    by_contra hne
    have hne' : r₂.proofAt i.hash ≠ r₁.proofAt i.hash := fun he => hne he.symm
    rw [if_neg hne'] at hsum
    exact absurd hsum (by decide)

theorem SameRecords.process {chain : Lineage BlockHeader} (h : SameRecords upgrade r₁ r₂ chain)
    (hadded₁ : (indexHeaders r₁.additions).find chain.label.hash = some chain)
    (hadded₂ : (indexHeaders r₂.additions).find chain.label.hash = some chain)
    {q : Lineage BlockHeader} {i : BlockHeader} (hx : .child q i ≤ chain) (hq : 0 < q.height) :
    r₁.processAt q.label.hash = r₁.processAt i.hash ↔
      r₂.processAt q.label.hash = r₂.processAt i.hash := by
  obtain ⟨b₁, b₂, ⟨-, hx₁⟩, ⟨-, hx₂⟩, hrecord⟩ := h.at hadded₁ hadded₂ hx restartHash
  have hchecksum (r : Run) {b : CBlockIndex} (hb : headers b = .child q i) :
      nStakeModifierChecksum restartHash r b =
        if r.processAt q.label.hash = r.processAt i.hash then 2 else 1 := by
    obtain ⟨p, j, rfl, hp, rfl⟩ := Lineage.map_eq_child hb
    have hpos : 0 < p.height := by rwa [← Lineage.height_map headerOf, hp]
    have hparent : nStakeModifierChecksum restartHash r p ≠ 0 := by
      cases p with
      | root k => exact absurd hpos (lt_irrefl 0)
      | child p' k =>
        rw [nStakeModifierChecksum, checksum_restartHash]
        exact one_or_two_ne_zero _
    have hj : (headerOf j).hash = j.hash := rfl
    rw [nStakeModifierChecksum, checksum_restartHash, hash_of_headers hp, hj]
    by_cases hsame : r.processAt q.label.hash = r.processAt j.hash
    · rw [if_pos hsame, if_neg hparent, if_pos hsame]
    · rw [if_neg hsame, if_pos rfl, if_neg hsame]
  have hsum := congrArg (fun r : BitVec 64 × Bool × BitVec 32 => r.2.2) hrecord
  simp only [stakeRecord, hchecksum r₁ hx₁, hchecksum r₂ hx₂] at hsum
  by_cases hsame : r₁.processAt q.label.hash = r₁.processAt i.hash
  · rw [if_pos hsame] at hsum
    by_contra hne
    rw [if_neg fun h₂ => hne ⟨fun _ => h₂, fun _ => hsame⟩] at hsum
    exact absurd hsum (by decide)
  · rw [if_neg hsame] at hsum
    by_contra hne
    rw [if_pos (by_contra fun h₂ => hne ⟨fun h₁ => absurd h₁ hsame, fun h => absurd h h₂⟩)] at hsum
    exact absurd hsum (by decide)

/-- The blocks of a chain that is in the index of both runs are given the same modifiers, flags
and checksums exactly in the same circumstances. -/
theorem sameRecords_iff {chain : Lineage BlockHeader}
    (hadded₁ : (indexHeaders r₁.additions).find chain.label.hash = some chain)
    (hadded₂ : (indexHeaders r₂.additions).find chain.label.hash = some chain) :
    SameRecords upgrade r₁ r₂ chain ↔ SameCircumstances r₁ r₂ chain := by
  constructor
  · intro h
    exact {
      literal := fun x hx hheight => h.literal hadded₁ hadded₂ hx hheight
      proof := fun x hx hheight hstake => h.proof hadded₁ hadded₂ hx hheight hstake
      process := fun q i hx hq => h.process hadded₁ hadded₂ hx hq }
  · exact sameRecords_of_sameCircumstances

end Agreement

/-! Two blocks, indexed by programs that are loaded at different addresses. -/

def twoAdditions : List Addition := [⟨forkBlock 1 0 0, 0, 0⟩, ⟨forkBlock 2 1 60, 0, 0⟩]

def loadedAt (literal : BitVec 64) : Run := ⟨fun _ => literal, twoAdditions⟩

def twoHeaders : Lineage BlockHeader :=
  .child (.root (blockHeader (forkBlock 1 0 0))) (blockHeader (forkBlock 2 1 60))

theorem find_twoHeaders :
    (indexHeaders twoAdditions).find twoHeaders.label.hash = some twoHeaders := by
  decide

theorem records_differ_by_address :
    ¬SameRecords 615800 (loadedAt 0x55d0c0de1000) (loadedAt 0x7f3ac0de1000) twoHeaders := by
  intro h
  have hliteral := h.literal find_twoHeaders find_twoHeaders le_rfl rfl
  exact absurd hliteral (by decide)

theorem sameRecords_iff_twoHeaders :
    SameRecords 615800 (loadedAt 0x55d0c0de1000) (loadedAt 0x7f3ac0de1000) twoHeaders ↔
      SameCircumstances (loadedAt 0x55d0c0de1000) (loadedAt 0x7f3ac0de1000) twoHeaders :=
  sameRecords_iff find_twoHeaders find_twoHeaders

end Scrypta.Kernel
