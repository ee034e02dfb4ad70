import Scrypta.MerkleBlock

/-! What the Merkle root of a block says about its transactions, and the branches that lead from a
transaction to the root. -/

namespace Scrypta.MerkleRoots

open MerkleTree
open CPartialMerkleTree (LevelAt CollisionFree blockPairs treeHeight foldl_pushPair merkleRoot_eq
  width_treeHeight)

section Model

variable (Hash : Uint256 → Uint256 → Uint256)

/-- `nIndex ^ 1` -/
def flipLowest (nIndex : ℤ) : ℤ := if nIndex % 2 = 0 then nIndex + 1 else nIndex - 1

def readAt (vMerkleTree : List Uint256) (i : ℤ) : Option Uint256 :=
  if i < 0 then none else vMerkleTree[i.toNat]?

/-- The loop of `GetMerkleBranch`; there is no branch where it reads outside the tree. -/
def branchLoop (vMerkleTree : List Uint256) : ℕ → ℕ → ℕ → ℤ → Option (List Uint256)
  | 0, _, _, _ => some []
  | fuel + 1, j, nSize, nIndex =>
    if 1 < nSize then
      let i := min (flipLowest nIndex) (nSize - 1)
      match readAt vMerkleTree (j + i) with
      | none => none
      | some hash =>
        (branchLoop vMerkleTree fuel (j + nSize) ((nSize + 1) / 2) (nIndex / 2)).map (hash :: ·)
    else some []

/-- The tree is built first if that has not been done. -/
def getMerkleBranch (vTxid vMerkleTree : List Uint256) (nIndex : ℤ) : Option (List Uint256) :=
  let vMerkleTree := if vMerkleTree.isEmpty then (buildMerkleTree Hash vTxid).1 else vMerkleTree
  branchLoop vMerkleTree vTxid.length 0 vTxid.length nIndex

def checkLoop (hash : Uint256) : List Uint256 → ℤ → Uint256
  | [], _ => hash
  | other :: rest, nIndex =>
    checkLoop (if nIndex % 2 = 1 then Hash other hash else Hash hash other) rest (nIndex / 2)

def checkMerkleBranch (hash : Uint256) (vMerkleBranch : List Uint256) (nIndex : ℤ) : Uint256 :=
  if nIndex = -1 then 0 else checkLoop Hash hash vMerkleBranch nIndex

/-- The pairs that `CheckMerkleBranch` hashes. -/
def checkedPairs (hash : Uint256) : List Uint256 → ℤ → List (Uint256 × Uint256)
  | [], _ => []
  | other :: rest, nIndex =>
    let pair := if nIndex % 2 = 1 then (other, hash) else (hash, other)
    pair :: checkedPairs (Hash pair.1 pair.2) rest (nIndex / 2)

end Model

/-! The flag for a repeated end. -/

section Mutated

variable {Hash : Uint256 → Uint256 → Uint256} {leaf : ℕ → Uint256} {n height j nSize : ℕ}

theorem foldl_pushPair_snd {vMerkleTree : List Uint256} (hlength : vMerkleTree.length = j + nSize)
    (mutated : Bool) {m : ℕ} (hm : 2 * m ≤ nSize + 1) :
    ((List.range m).foldl (pushPair Hash j nSize) (vMerkleTree, mutated)).2 = true ↔
      mutated = true ∨ ∃ k < m, nSize = 2 * k + 2 ∧
        vMerkleTree.getD (j + 2 * k) 0 = vMerkleTree.getD (j + (2 * k + 1)) 0 := by
  induction m with
  | zero => simp
  | succ m ih =>
    have hfst := @foldl_pushPair Hash _ _ _ hlength mutated m (by omega)
    have hold : ∀ (l : List Uint256) (i : ℕ), i < nSize →
        (vMerkleTree ++ l).getD (j + i) 0 = vMerkleTree.getD (j + i) 0 := fun l i hi => by
      rw [List.getD_eq_getElem?_getD, List.getElem?_append_left (by omega),
        List.getD_eq_getElem?_getD]
    rw [List.range_succ, List.foldl_append, List.foldl_cons, List.foldl_nil, pushPair]
    dsimp only
    rw [hfst, hold _ _ (by omega), hold _ _ (by omega), Bool.or_eq_true, ih (by omega), or_assoc]
    refine or_congr_right ?_
    rw [Bool.and_eq_true, Bool.and_eq_true, beq_iff_eq, beq_iff_eq, beq_iff_eq]
    constructor
    · rintro (⟨k, hk, hends⟩ | ⟨⟨hnext, hend⟩, heq⟩)
      · exact ⟨k, by omega, hends⟩
      · rw [hnext] at heq
        exact ⟨m, by omega, by omega, heq⟩
    · rintro ⟨k, hk, hend, heq⟩
      rcases Nat.lt_succ_iff_lt_or_eq.1 hk with hlt | rfl
      · exact Or.inl ⟨k, hlt, hend, heq⟩
      · have hnext : min (2 * k + 1) (nSize - 1) = 2 * k + 1 := by omega
        rw [hnext]
        exact Or.inr ⟨⟨rfl, by omega⟩, heq⟩

theorem getElem?_row_of_levelAt {vMerkleTree : List Uint256}
    (h : LevelAt Hash leaf n height vMerkleTree j nSize) {i : ℕ} (hi : i < nSize) :
    (row Hash leaf n height)[i]? = some (vMerkleTree.getD (j + i) 0) := by
  rw [h.nodes i hi]
  exact MerkleTree.getElem?_row height (h.size ▸ hi)

theorem mutated_of_levelAt {vMerkleTree : List Uint256}
    (h : LevelAt Hash leaf n height vMerkleTree j nSize) (mutated : Bool) :
    ((List.range ((nSize + 1) / 2)).foldl (pushPair Hash j nSize) (vMerkleTree, mutated)).2 = true ↔
      mutated = true ∨ endsTwice (row Hash leaf n height) = true := by
  rw [foldl_pushPair_snd h.length mutated (by omega), endsTwice_iff, length_row, ← h.size]
  refine or_congr_right ⟨?_, ?_⟩
  · rintro ⟨k, -, hsize, heq⟩
    refine ⟨k, hsize, ?_⟩
    rw [getElem?_row_of_levelAt h (by omega), getElem?_row_of_levelAt h (by omega), heq]
  · rintro ⟨k, hsize, heq⟩
    rw [getElem?_row_of_levelAt h (by omega), getElem?_row_of_levelAt h (by omega)] at heq
    exact ⟨k, by omega, hsize, Option.some.inj heq⟩

theorem le_heightFrom (n fuel height : ℕ) : height ≤ heightFrom n fuel height := by
  induction fuel generalizing height with
  | zero => exact le_rfl
  | succ fuel ih =>
    rw [heightFrom]
    split
    · exact (Nat.le_succ height).trans (ih _)
    · exact le_rfl

theorem buildLevels_mutated {fuel : ℕ} {s : List Uint256 × Bool}
    (h : LevelAt Hash leaf n height s.1 j nSize) : (buildLevels Hash fuel s j nSize).2 = true ↔
      s.2 = true ∨ ∃ k, height ≤ k ∧ k < heightFrom n fuel height ∧
        endsTwice (row Hash leaf n k) = true := by
  induction fuel generalizing height j nSize s with
  | zero =>
    have hnone : ¬∃ k, height ≤ k ∧ k < heightFrom n 0 height ∧
        endsTwice (row Hash leaf n k) = true := by
      rintro ⟨k, hle, hlt, -⟩
      exact absurd hlt (not_lt.2 hle)
    exact (or_iff_left hnone).symm
  | succ fuel ih =>
    rw [buildLevels, heightFrom, ← h.size]
    split
    · have hle := le_heightFrom n fuel (height + 1)
      rw [ih (h.next s.2), mutated_of_levelAt h s.2, or_assoc]
      refine or_congr_right ⟨?_, ?_⟩
      · rintro (hends | ⟨k, hk, hlt, hends⟩)
        · exact ⟨height, le_rfl, hle, hends⟩
        · exact ⟨k, by omega, hlt, hends⟩
      · rintro ⟨k, hk, hlt, hends⟩
        rcases Nat.eq_or_lt_of_le hk with rfl | hlow
        · exact Or.inl hends
        · exact Or.inr ⟨k, hlow, hlt, hends⟩
    · refine (or_iff_left ?_).symm
      rintro ⟨k, hle, hlt, -⟩
      exact absurd hlt (not_lt.2 hle)

theorem levelAt_leaves (Hash : Uint256 → Uint256 → Uint256) (vTxid : List Uint256) :
    LevelAt Hash (vTxid.getD · 0) vTxid.length 0 vTxid 0 vTxid.length :=
  ⟨by simp, by simp, fun pos _ => by
    rw [Nat.zero_add]
    rfl⟩

theorem buildMerkleTree_mutated (vTxid : List Uint256) :
    (buildMerkleTree Hash vTxid).2 = true ↔ ∃ k < treeHeight vTxid.length,
      endsTwice (row Hash (vTxid.getD · 0) vTxid.length k) = true := by
  rw [buildMerkleTree, buildLevels_mutated (levelAt_leaves Hash vTxid)]
  simp [treeHeight]

theorem row_zero (vTxid : List Uint256) :
    row Hash (vTxid.getD · 0) vTxid.length 0 = vTxid := by
  refine List.ext_getElem? fun i => ?_
  by_cases hi : i < vTxid.length
  · rw [MerkleTree.getElem?_row 0 (by rwa [width_zero]), nodeHash, List.getD_eq_getElem?_getD,
      List.getElem?_eq_getElem hi, Option.getD_some]
  · rw [List.getElem?_eq_none (by rwa [length_row, width_zero, ← not_lt]),
      List.getElem?_eq_none (not_lt.1 hi)]

end Mutated

section Roots

variable {Hash : Uint256 → Uint256 → Uint256} {xs ys : List Uint256}

theorem couples_mem_blockPairs {vTxid : List Uint256} {k : ℕ} (hk : k < treeHeight vTxid.length)
    {p : Uint256 × Uint256} (hp : p ∈ couples (row Hash (vTxid.getD · 0) vTxid.length k)) :
    p ∈ blockPairs Hash vTxid :=
  mem_nodePairs_of_couples hk hp (width_treeHeight _)

theorem getD_zero_mem {vTxid : List Uint256} (h : vTxid ≠ []) : vTxid.getD 0 0 ∈ vTxid := by
  cases vTxid with
  | nil => exact absurd rfl h
  | cons id rest => exact List.mem_cons_self

theorem row_treeHeight (Hash : Uint256 → Uint256 → Uint256) {vTxid : List Uint256}
    (h : vTxid ≠ []) :
    row Hash (vTxid.getD · 0) vTxid.length (treeHeight vTxid.length) = [merkleRoot Hash vTxid] := by
  have hone : width vTxid.length (treeHeight vTxid.length) = 1 :=
    le_antisymm (width_treeHeight _) (width_pos (List.length_pos_iff.2 h) _)
  rw [row, hone, merkleRoot_eq h]
  rfl

/-- Equal roots are roots of equal lists, or the longer list is reported as mutated. -/
theorem merkleRoot_injective (Hash : Uint256 → Uint256 → Uint256) (xs ys : List Uint256)
    (hx : xs ≠ []) (hy : ys ≠ [])
    (hfree : CollisionFree Hash (blockPairs Hash xs ++ blockPairs Hash ys))
    (hids : ∀ id ∈ xs ++ ys, ∀ p ∈ blockPairs Hash xs ++ blockPairs Hash ys, Hash p.1 p.2 ≠ id)
    (hroot : merkleRoot Hash xs = merkleRoot Hash ys) :
    ((buildMerkleTree Hash xs).2 = false → (buildMerkleTree Hash ys).2 = false → xs = ys) ∧
      (xs.length < ys.length → (buildMerkleTree Hash ys).2 = true) := by
  have hmemx : ∀ j < treeHeight xs.length, ∀ p ∈ couples (row Hash (xs.getD · 0) xs.length j),
      p ∈ blockPairs Hash xs ++ blockPairs Hash ys := fun j hj p hp =>
    List.mem_append_left _ (couples_mem_blockPairs hj hp)
  have hmemy : ∀ j < treeHeight ys.length, ∀ p ∈ couples (row Hash (ys.getD · 0) ys.length j),
      p ∈ blockPairs Hash xs ++ blockPairs Hash ys := fun j hj p hp =>
    List.mem_append_right _ (couples_mem_blockPairs hj hp)
  have hheight : treeHeight xs.length = treeHeight ys.length :=
    height_eq_of_nodeHash_eq hfree (List.length_pos_iff.2 hx) (List.length_pos_iff.2 hy)
      (hids _ (List.mem_append_left _ (getD_zero_mem hx)))
      (hids _ (List.mem_append_right _ (getD_zero_mem hy))) hmemx hmemy
      (by rw [← merkleRoot_eq hx, ← merkleRoot_eq hy, hroot])
  have htop := row_treeHeight Hash hx
  rw [hroot, ← row_treeHeight Hash hy, ← hheight] at htop
  have hleaves := leaves_of_row_eq hfree hmemx (by rwa [hheight]) htop
  rw [row_zero, row_zero] at hleaves
  rcases hleaves with rfl | ⟨j, hj, ⟨hwidth, hends⟩ | ⟨hwidth, hends⟩⟩
  · exact ⟨fun _ _ => rfl, fun hlt => absurd hlt (Nat.lt_irrefl _)⟩
  · have hmutated : (buildMerkleTree Hash ys).2 = true :=
      (buildMerkleTree_mutated ys).2 ⟨j, hheight ▸ hj, hends⟩
    exact ⟨fun _ hnot => absurd (hmutated.symm.trans hnot) Bool.false_ne_true.symm,
      fun _ => hmutated⟩
  · have hmutated : (buildMerkleTree Hash xs).2 = true :=
      (buildMerkleTree_mutated xs).2 ⟨j, hj, hends⟩
    refine ⟨fun hnot _ => absurd (hmutated.symm.trans hnot) Bool.false_ne_true.symm, fun hlt => ?_⟩
    -- the shorter list has no wider row
    have hle := width_le_width hlt.le j
    omega

/-- A hash of small numbers. -/
def pairSum (left right : Uint256) : Uint256 := 2 * left + 3 * right + 1000

/-- A list and the same list with its last id repeated. -/
theorem merkleRoot_injective_sample :
    merkleRoot pairSum [1, 2, 3] = merkleRoot pairSum [1, 2, 3, 3] ∧
      (buildMerkleTree pairSum [1, 2, 3, 3]).2 = true :=
  have hroot : merkleRoot pairSum [1, 2, 3] = merkleRoot pairSum [1, 2, 3, 3] := by decide
  have hfree : ((blockPairs pairSum [1, 2, 3] ++ blockPairs pairSum [1, 2, 3, 3]).all fun p =>
      (blockPairs pairSum [1, 2, 3] ++ blockPairs pairSum [1, 2, 3, 3]).all fun q =>
        pairSum p.1 p.2 != pairSum q.1 q.2 || p == q) = true := by decide
  have hids : ([1, 2, 3] ++ [1, 2, 3, 3] : List Uint256).all (fun id =>
      (blockPairs pairSum [1, 2, 3] ++ blockPairs pairSum [1, 2, 3, 3]).all fun p =>
        pairSum p.1 p.2 != id) = true := by decide
  have hfree' : CollisionFree pairSum
      (blockPairs pairSum [1, 2, 3] ++ blockPairs pairSum [1, 2, 3, 3]) := fun p hp q hq heq => by
    have hpq := List.all_eq_true.1 (List.all_eq_true.1 hfree p hp) q hq
    rw [heq, bne_self_eq_false, Bool.false_or, beq_iff_eq] at hpq
    exact hpq
  ⟨hroot, (merkleRoot_injective pairSum [1, 2, 3] [1, 2, 3, 3] (by decide) (by decide) hfree'
    (fun id hid p hp => bne_iff_ne.1 (List.all_eq_true.1 (List.all_eq_true.1 hids id hid) p hp))
    hroot).2 (by decide)⟩

end Roots

/-! Branches. -/

section Branches

variable {Hash : Uint256 → Uint256 → Uint256} {leaf : ℕ → Uint256} {n height j nSize : ℕ}

theorem prefix_buildLevels (fuel : ℕ) {s : List Uint256 × Bool}
    (h : LevelAt Hash leaf n height s.1 j nSize) : s.1 <+: (buildLevels Hash fuel s j nSize).1 := by
  induction fuel generalizing height j nSize s with
  | zero => exact List.prefix_rfl
  | succ fuel ih =>
    rw [buildLevels]
    split
    · refine List.IsPrefix.trans ?_ (ih (h.next s.2))
      rw [foldl_pushPair h.length s.2 (by omega)]
      exact List.prefix_append _ _
    · exact List.prefix_rfl

/-- The node that is hashed with a node of a row of this many. -/
def sibling (nSize pos : ℕ) : ℕ :=
  if pos % 2 = 1 then pos - 1 else if pos + 1 < nSize then pos + 1 else pos

theorem min_flipLowest {pos : ℕ} (hpos : pos < nSize) :
    min (flipLowest pos) ((nSize : ℤ) - 1) = sibling nSize pos := by
  unfold flipLowest sibling
  split
  · split
    · omega
    · split
      · omega
      · omega
  · split
    · omega
    · omega

theorem sibling_lt {pos : ℕ} (hpos : pos < nSize) : sibling nSize pos < nSize := by
  unfold sibling
  split
  · omega
  · split
    · assumption
    · exact hpos

/-- A node and its sibling, in their order, are the two nodes under the one above them. -/
theorem nodePair_half (Hash : Uint256 → Uint256 → Uint256) (leaf : ℕ → Uint256) {pos : ℕ}
    (hpos : pos < width n height) :
    nodePair Hash leaf n height (pos / 2) =
      if pos % 2 = 1 then
        (nodeHash Hash leaf n height (sibling (width n height) pos),
          nodeHash Hash leaf n height pos)
      else
        (nodeHash Hash leaf n height pos,
          nodeHash Hash leaf n height (sibling (width n height) pos)) := by
  unfold nodePair sibling
  by_cases hodd : pos % 2 = 1
  · have hleft : 2 * (pos / 2) = pos - 1 := by omega
    have hright : pos - 1 + 1 = pos := by omega
    rw [if_pos hodd, if_pos hodd, hleft, hright, if_pos hpos]
  · have hleft : 2 * (pos / 2) = pos := by omega
    rw [if_neg hodd, if_neg hodd, hleft]
    split
    · rfl
    · rfl

theorem readAt_of_levelAt {vMerkleTree tree : List Uint256}
    (h : LevelAt Hash leaf n height vMerkleTree j nSize) (hfront : vMerkleTree <+: tree) {i : ℕ}
    (hi : i < nSize) : readAt tree (j + i) = some (nodeHash Hash leaf n height i) := by
  obtain ⟨rest, rfl⟩ := hfront
  have hlen := h.length
  have hcast : ((j : ℤ) + i).toNat = j + i := by omega
  rw [readAt, if_neg (by omega), hcast, List.getElem?_append_left (by omega), ← h.nodes i hi,
    List.getD_eq_getElem?_getD, List.getElem?_eq_getElem (by omega)]
  rfl

theorem checkLoop_cons (hash other : Uint256) (rest : List Uint256) (pos : ℕ) :
    checkLoop Hash hash (other :: rest) pos =
      checkLoop Hash (if pos % 2 = 1 then Hash other hash else Hash hash other) rest
        ((pos / 2 : ℕ) : ℤ) := by
  have hodd : ((pos : ℤ) % 2 = 1) = (pos % 2 = 1) := by
    rw [eq_iff_iff]
    omega
  rw [checkLoop]
  simp only [hodd]
  rfl

/-- The branch of a node is read within the tree, and leads from the node to the top. -/
theorem branchLoop_spec (fuel : ℕ) {s : List Uint256 × Bool}
    (h : LevelAt Hash leaf n height s.1 j nSize) {pos : ℕ} (hpos : pos < nSize) :
    ∃ branch, branchLoop (buildLevels Hash fuel s j nSize).1 fuel j nSize pos = some branch ∧
      height + branch.length = heightFrom n fuel height ∧
      checkLoop Hash (nodeHash Hash leaf n height pos) branch pos =
        nodeHash Hash leaf n (heightFrom n fuel height) (pos / 2 ^ branch.length) := by
  induction fuel generalizing height j nSize s pos with
  | zero =>
    refine ⟨[], rfl, rfl, ?_⟩
    rw [List.length_nil, Nat.pow_zero, Nat.div_one]
    rfl
  | succ fuel ih =>
    by_cases hmore : 1 < nSize
    · have hread := readAt_of_levelAt h (prefix_buildLevels (fuel + 1) h) (sibling_lt hpos)
      have hwidth := h.size ▸ hpos
      have hhalf : ((pos : ℤ) / 2) = ((pos / 2 : ℕ) : ℤ) := rfl
      obtain ⟨branch, hbranch, hlen, hcheck⟩ :=
        ih (h.next s.2) (show pos / 2 < (nSize + 1) / 2 by omega)
      have hbuild : buildLevels Hash (fuel + 1) s j nSize = buildLevels Hash fuel
          ((List.range ((nSize + 1) / 2)).foldl (pushPair Hash j nSize) s) (j + nSize)
            ((nSize + 1) / 2) := if_pos hmore
      have hup : heightFrom n (fuel + 1) height = heightFrom n fuel (height + 1) :=
        if_pos (h.size ▸ hmore)
      refine ⟨nodeHash Hash leaf n height (sibling nSize pos) :: branch, ?_, ?_, ?_⟩
      · rw [branchLoop, if_pos hmore, min_flipLowest hpos]
        dsimp only
        rw [hread]
        dsimp only
        rw [hbuild, hhalf, hbranch, Option.map_some]
      · rw [List.length_cons, hup, ← hlen]
        omega
      · have hpair := nodePair_half Hash leaf hwidth
        rw [← h.size] at hpair
        have hnode : (if pos % 2 = 1 then
            Hash (nodeHash Hash leaf n height (sibling nSize pos)) (nodeHash Hash leaf n height pos)
            else Hash (nodeHash Hash leaf n height pos)
              (nodeHash Hash leaf n height (sibling nSize pos))) =
            nodeHash Hash leaf n (height + 1) (pos / 2) := by
          change _ = Hash (nodePair Hash leaf n height (pos / 2)).1
            (nodePair Hash leaf n height (pos / 2)).2
          rw [hpair]
          split
          · rfl
          · rfl
        rw [checkLoop_cons, hnode, hcheck, hup, List.length_cons, Nat.div_div_eq_div_mul,
          Nat.pow_succ, Nat.mul_comm 2]
    · refine ⟨[], ?_, ?_, ?_⟩
      · rw [branchLoop, if_neg hmore]
      · exact (if_neg (h.size ▸ hmore)).symm
      · have hstay : heightFrom n (fuel + 1) height = height := if_neg (h.size ▸ hmore)
        rw [hstay, List.length_nil, Nat.pow_zero, Nat.div_one]
        rfl

theorem checkedPairs_cons (hash other : Uint256) (rest : List Uint256) (pos : ℕ) :
    checkedPairs Hash hash (other :: rest) pos =
      (if pos % 2 = 1 then (other, hash) else (hash, other)) ::
        checkedPairs Hash (if pos % 2 = 1 then Hash other hash else Hash hash other) rest
          ((pos / 2 : ℕ) : ℤ) := by
  have hodd : ((pos : ℤ) % 2 = 1) = (pos % 2 = 1) := by
    rw [eq_iff_iff]
    omega
  rw [checkedPairs]
  simp only [hodd]
  split
  · rfl
  · rfl

/-- Where the hash has no collision, what leads to the node above is the node. -/
theorem eq_of_checkLoop {P : List (Uint256 × Uint256)} (hfree : CollisionFree Hash P)
    {branch : List Uint256} {hash : Uint256} {pos : ℕ} (hpos : pos < width n height)
    (hchecked : ∀ p ∈ checkedPairs Hash hash branch pos, p ∈ P)
    (hnodes : ∀ k < height + branch.length, ∀ q < width n (k + 1), nodePair Hash leaf n k q ∈ P)
    (heq : checkLoop Hash hash branch pos =
      nodeHash Hash leaf n (height + branch.length) (pos / 2 ^ branch.length)) :
    hash = nodeHash Hash leaf n height pos := by
  induction branch generalizing hash height pos with
  | nil =>
    rw [List.length_nil, Nat.pow_zero, Nat.div_one] at heq
    exact heq
  | cons other rest ih =>
    have hsucc := width_succ n height
    have hup : pos / 2 < width n (height + 1) := by omega
    have hlen : height + (other :: rest).length = height + 1 + rest.length := by
      rw [List.length_cons]
      omega
    rw [checkedPairs_cons] at hchecked
    rw [hlen] at hnodes
    rw [checkLoop_cons, hlen, List.length_cons, Nat.pow_succ, Nat.mul_comm _ 2,
      ← Nat.div_div_eq_div_mul] at heq
    have hnext := ih hup (fun p hp => hchecked p (List.mem_cons_of_mem _ hp)) hnodes heq
    have hmem := hchecked _ List.mem_cons_self
    have hpair := hnodes height (by omega) _ hup
    have hsame := hfree _ hmem _ hpair (by
      refine Eq.trans ?_ hnext
      split
      · rfl
      · rfl)
    rw [nodePair_half Hash leaf hpos] at hsame
    by_cases hodd : pos % 2 = 1
    · rw [if_pos hodd, if_pos hodd] at hsame
      exact (Prod.mk.inj hsame).2
    · rw [if_neg hodd, if_neg hodd] at hsame
      exact (Prod.mk.inj hsame).1

theorem checkMerkleBranch_natCast (hash : Uint256) (branch : List Uint256) (i : ℕ) :
    checkMerkleBranch Hash hash branch i = checkLoop Hash hash branch i :=
  if_neg (by omega)

theorem getMerkleBranch_eq {vTxid vMerkleTree : List Uint256}
    (h : vMerkleTree = [] ∨ vMerkleTree = (buildMerkleTree Hash vTxid).1) (nIndex : ℤ) :
    getMerkleBranch Hash vTxid vMerkleTree nIndex =
      branchLoop (buildMerkleTree Hash vTxid).1 vTxid.length 0 vTxid.length nIndex := by
  unfold getMerkleBranch
  rcases h with rfl | rfl
  · rfl
  · split
    · rfl
    · rfl

/-- The branch of a transaction leads to the root, whether the tree has been built before or not;
and what a branch as long as the tree is high leads to the root from is the transaction. -/
theorem merkle_branches_prove_ids (Hash : Uint256 → Uint256 → Uint256)
    (vTxid vMerkleTree : List Uint256)
    (hbuilt : vMerkleTree = [] ∨ vMerkleTree = (buildMerkleTree Hash vTxid).1) (i : ℕ)
    (hi : i < vTxid.length) :
    (∃ branch, getMerkleBranch Hash vTxid vMerkleTree i = some branch ∧
      branch.length = treeHeight vTxid.length ∧
      checkMerkleBranch Hash vTxid[i] branch i = merkleRoot Hash vTxid) ∧
    ∀ hash branch, branch.length = treeHeight vTxid.length →
      CollisionFree Hash (checkedPairs Hash hash branch i ++ blockPairs Hash vTxid) →
      checkMerkleBranch Hash hash branch i = merkleRoot Hash vTxid → hash = vTxid[i] := by
  have hne : vTxid ≠ [] := List.length_pos_iff.1 (by omega)
  have hleaf : nodeHash Hash (vTxid.getD · 0) vTxid.length 0 i = vTxid[i] := by
    rw [nodeHash, List.getD_eq_getElem?_getD, List.getElem?_eq_getElem hi, Option.getD_some]
  have htop : i / 2 ^ treeHeight vTxid.length = 0 :=
    Nat.div_eq_of_lt (hi.trans_le (CPartialMerkleTree.le_two_pow_treeHeight _))
  rw [merkleRoot_eq hne, ← hleaf]
  constructor
  · have hleaves : LevelAt Hash (vTxid.getD · 0) vTxid.length 0 (vTxid, false).1 0 vTxid.length :=
      levelAt_leaves Hash vTxid
    obtain ⟨branch, hbranch, hlen, hcheck⟩ := branchLoop_spec vTxid.length hleaves hi
    rw [Nat.zero_add] at hlen
    change branch.length = treeHeight vTxid.length at hlen
    rw [hlen, htop] at hcheck
    refine ⟨branch, ?_, hlen, ?_⟩
    · rw [getMerkleBranch_eq hbuilt]
      exact hbranch
    · rw [checkMerkleBranch_natCast]
      exact hcheck
  · intro hash branch hlen hfree hcheck
    rw [checkMerkleBranch_natCast] at hcheck
    refine eq_of_checkLoop hfree (by rwa [width_zero])
      (fun p hp => List.mem_append_left _ hp) (fun k hk q hq => ?_) ?_
    · rw [Nat.zero_add, hlen] at hk
      refine List.mem_append_right _ (couples_mem_blockPairs hk ?_)
      rw [couples_row]
      exact List.mem_map.2 ⟨q, List.mem_range.2 hq, rfl⟩
    · rw [Nat.zero_add, hlen, htop]
      exact hcheck

theorem merkle_branches_prove_ids_sample :
    ∃ branch, getMerkleBranch pairSum [1, 2, 3] [] 2 = some branch ∧
      checkMerkleBranch pairSum 3 branch 2 = merkleRoot pairSum [1, 2, 3] :=
  have ⟨branch, hbranch, _, hcheck⟩ :=
    (merkle_branches_prove_ids pairSum [1, 2, 3] [] (Or.inl rfl) 2 (by decide)).1
  ⟨branch, hbranch, hcheck⟩

end Branches

end Scrypta.MerkleRoots
