import Scrypta.MasternodeRank
import Scrypta.Toolkit.Runs
import Scrypta.Toolkit.Standings

/-! When two nodes with one chain and one masternode list rank alike, whatever they went through
before. -/

namespace Scrypta.Ranking

open Runs Standings

/-! The hash that a node with nothing remembered reads. -/

section Hashes

/-- The hash of the block below the height, which is above the genesis block. -/
def hashBelow (chain : List Block) (k : ℤ) : Option Uint256 :=
  if 2 ≤ k then chain.reverse[(k - 1).toNat]?.map (·.hash) else none

/-- Height 0 stands for the height of the tip. -/
def heightKey (chain : List Block) (nBlockHeight : ℤ) : ℤ :=
  if nBlockHeight = 0 then chain.length - 1 else nBlockHeight

/-- Below height 0 the tip is read. -/
def hashFor (chain : List Block) (nBlockHeight : ℤ) : Option Uint256 :=
  if heightKey chain nBlockHeight < 0 then
    if 2 ≤ chain.length then chain.head?.map (·.hash) else none
  else hashBelow chain (heightKey chain nBlockHeight)

theorem readBack_eq (nBlocksAgo n : ℤ) (chain : List Block) :
    readBack nBlocksAgo n chain =
      if (nBlocksAgo - n).toNat + 1 < chain.length then
        chain[(nBlocksAgo - n).toNat]?.map (·.hash)
      else none := by
  induction chain generalizing n with
  | nil => simp [readBack]
  | cons b pprev ih =>
    rw [readBack]
    by_cases hgenesis : pprev = []
    · simp [hgenesis]
    · have hpos : 0 < pprev.length := List.length_pos_iff.mpr hgenesis
      rw [if_neg hgenesis]
      by_cases hn : nBlocksAgo ≤ n
      · have hzero : (nBlocksAgo - n).toNat = 0 := by omega
        have hlen : 0 + 1 < (b :: pprev).length := by simp only [List.length_cons]; omega
        rw [if_pos hn, hzero, if_pos hlen]
        rfl
      · have hsucc : (nBlocksAgo - n).toNat = (nBlocksAgo - (n + 1)).toNat + 1 := by omega
        rw [if_neg hn, ih, hsucc, List.getElem?_cons_succ, List.length_cons]
        by_cases hlt : (nBlocksAgo - (n + 1)).toNat + 1 < pprev.length
        · rw [if_pos hlt, if_pos (by omega)]
        · rw [if_neg hlt, if_neg (by omega)]

/-- What is read when nothing is remembered for the height. -/
theorem readBack_hashFor {tip : Block} {pprev : List Block} {nBlockHeight : ℤ}
    {k : ℤ} (hk : k = heightKey (tip :: pprev) nBlockHeight) :
    (if (pprev.length : ℤ) = 0 ∨ (pprev.length : ℤ) + 1 < k then none
      else readBack (if 0 < k then pprev.length + 1 - k else 0) 0 (tip :: pprev)) =
      hashFor (tip :: pprev) nBlockHeight := by
  rw [hashFor, ← hk, readBack_eq, sub_zero, List.length_cons]
  by_cases hneg : k < 0
  · rw [if_pos hneg, if_neg (by omega : ¬0 < k)]
    by_cases hlen : (pprev.length : ℤ) = 0
    · rw [if_pos (Or.inl hlen), if_neg (by omega)]
    · rw [if_neg (by omega), if_pos (by simp; omega), if_pos (by omega)]
      rfl
  · have hk0 : k = 0 → pprev.length = 0 := by
      intro hzero
      rw [heightKey, List.length_cons] at hk
      split at hk <;> push_cast at hk <;> omega
    rw [if_neg hneg, hashBelow]
    by_cases hout : (pprev.length : ℤ) = 0 ∨ (pprev.length : ℤ) + 1 < k
    · rw [if_pos hout]
      by_cases h2 : 2 ≤ k
      · have hlen : (tip :: pprev).reverse.length ≤ (k - 1).toNat := by
          simp only [List.length_reverse, List.length_cons]
          omega
        rw [if_pos h2, List.getElem?_eq_none hlen]
        rfl
      · rw [if_neg h2]
    · have hpos : 0 < k := by
        by_contra hle
        exact hout (Or.inl (by exact_mod_cast hk0 (by omega)))
      rw [if_neg hout, if_pos hpos]
      by_cases h2 : 2 ≤ k
      · have hlt : (k - 1).toNat < (tip :: pprev).length := by
          simp only [List.length_cons]
          omega
        have hidx : (tip :: pprev).length - 1 - (k - 1).toNat =
            ((pprev.length : ℤ) + 1 - k).toNat := by
          simp only [List.length_cons]
          omega
        rw [if_pos h2, if_pos (by omega), List.getElem?_reverse hlt, hidx]
      · rw [if_neg h2, if_neg (by omega)]

variable {node : Node} {nBlockHeight : ℤ}

@[simp] theorem hashFor_nil (nBlockHeight : ℤ) : hashFor [] nBlockHeight = none := by
  simp [hashFor, hashBelow]

/-- What a node may have remembered without harm to a query at this height. -/
def Sound (node : Node) (nBlockHeight : ℤ) : Prop :=
  ∀ hash, node.mapCacheBlockHashes.find (heightKey node.chainActive nBlockHeight) = some hash →
    hashFor node.chainActive nBlockHeight = some hash

/-- The node has only been asked at this height in between. -/
structure Asked (nBlockHeight : ℤ) (node node' : Node) : Prop where
  chain : node'.chainActive = node.chainActive
  cache : ∀ k hash, node'.mapCacheBlockHashes.find k = some hash →
    node.mapCacheBlockHashes.find k = some hash ∨
      k = heightKey node.chainActive nBlockHeight ∧
        hashFor node.chainActive nBlockHeight = some hash

theorem Asked.refl (nBlockHeight : ℤ) (node : Node) : Asked nBlockHeight node node :=
  ⟨rfl, fun _ _ h => Or.inl h⟩

theorem Asked.trans {nodeA nodeB nodeC : Node} (h : Asked nBlockHeight nodeA nodeB)
    (h' : Asked nBlockHeight nodeB nodeC) : Asked nBlockHeight nodeA nodeC where
  chain := h'.chain.trans h.chain
  cache := by
    intro k hash hfind
    rcases h'.cache k hash hfind with hold | hnew
    · exact h.cache k hash hold
    · rw [h.chain] at hnew
      exact Or.inr hnew

theorem Asked.sound {node' : Node} (h : Asked nBlockHeight node node')
    (hsound : Sound node nBlockHeight) : Sound node' nBlockHeight := by
  intro hash hfind
  rw [h.chain] at hfind ⊢
  rcases h.cache _ hash hfind with hold | hnew
  · exact hsound hash hold
  · exact hnew.2

/-- A change of the list only. -/
theorem Asked.withList {node' : Node} (h : Asked nBlockHeight node node')
    (vMasternodes : List CMasternode) :
    Asked nBlockHeight node { node' with vMasternodes := vMasternodes } :=
  ⟨h.chain, h.cache⟩

/-- One query: the hash of the chain, and at most that hash is remembered. -/
theorem getBlockHash_spec (hsound : Sound node nBlockHeight) :
    (getBlockHash node nBlockHeight).1 = hashFor node.chainActive nBlockHeight ∧
      Asked nBlockHeight node (getBlockHash node nBlockHeight).2 ∧
      (getBlockHash node nBlockHeight).2.vMasternodes = node.vMasternodes := by
  obtain ⟨chain, cache, list⟩ := node
  cases chain with
  | nil => exact ⟨(hashFor_nil nBlockHeight).symm, Asked.refl _ _, rfl⟩
  | cons tip pprev =>
    obtain ⟨k, hk⟩ : ∃ k, k = heightKey (tip :: pprev) nBlockHeight := ⟨_, rfl⟩
    have hkey : k = if nBlockHeight = 0 then (pprev.length : ℤ) else nBlockHeight := by
      rw [hk, heightKey, List.length_cons]
      simp
    have hread := readBack_hashFor hk
    cases hfind : cache.find k with
    | some hash =>
      have hget : getBlockHash ⟨tip :: pprev, cache, list⟩ nBlockHeight =
          (some hash, ⟨tip :: pprev, cache, list⟩) := by
        simp only [getBlockHash, ← hkey, hfind]
      rw [hget]
      exact ⟨(hsound hash (hk ▸ hfind)).symm, Asked.refl _ _, rfl⟩
    | none =>
      by_cases hout : (pprev.length : ℤ) = 0 ∨ (pprev.length : ℤ) + 1 < k
      · have hget : getBlockHash ⟨tip :: pprev, cache, list⟩ nBlockHeight =
            (none, ⟨tip :: pprev, cache, list⟩) := by
          simp only [getBlockHash, ← hkey, hfind, if_pos hout]
        rw [if_pos hout] at hread
        rw [hget]
        exact ⟨hread, Asked.refl _ _, rfl⟩
      · rw [if_neg hout] at hread
        cases hhash : hashFor (tip :: pprev) nBlockHeight with
        | none =>
          have hget : getBlockHash ⟨tip :: pprev, cache, list⟩ nBlockHeight =
              (none, ⟨tip :: pprev, cache, list⟩) := by
            simp only [getBlockHash, ← hkey, hfind, if_neg hout, hread, hhash]
          rw [hget]
          exact ⟨rfl, Asked.refl _ _, rfl⟩
        | some hash =>
          have hget : getBlockHash ⟨tip :: pprev, cache, list⟩ nBlockHeight =
              (some hash, ⟨tip :: pprev, cache.set k hash, list⟩) := by
            simp only [getBlockHash, ← hkey, hfind, if_neg hout, hread, hhash]
          rw [hget]
          refine ⟨rfl, ⟨rfl, fun k' hash' hfind' => ?_⟩, rfl⟩
          rcases Dict.find_set_cases hfind' with ⟨rfl, rfl⟩ | ⟨_, hold⟩
          · exact Or.inr ⟨hk, hhash⟩
          · exact Or.inl hold

end Hashes

/-! Scores without the cache. -/

section Scores

variable (orc : Oracles) {node node' : Node} {nBlockHeight : ℤ}

/-- The score of an outpoint on a chain. -/
def scoreOn (chain : List Block) (nBlockHeight : ℤ) (prevout : COutPoint) :
    Uint256 :=
  match hashFor chain (toInt32 nBlockHeight) with
  | some hash => distance orc hash prevout
  | none => 0

/-- A step of a loop that queries one height. -/
structure Queried (nBlockHeight : ℤ) (node node' : Node) : Prop where
  asked : Asked (toInt32 nBlockHeight) node node'
  list : node'.vMasternodes = node.vMasternodes

theorem Queried.refl (nBlockHeight : ℤ) (node : Node) : Queried nBlockHeight node node :=
  ⟨Asked.refl _ _, rfl⟩

theorem Queried.trans {nodeA nodeB nodeC : Node} (h : Queried nBlockHeight nodeA nodeB)
    (h' : Queried nBlockHeight nodeB nodeC) : Queried nBlockHeight nodeA nodeC :=
  ⟨h.asked.trans h'.asked, h'.list.trans h.list⟩

theorem calculateScore_spec (hsound : Sound node (toInt32 nBlockHeight)) (mn : CMasternode) :
    (calculateScore orc node mn nBlockHeight).1 =
        scoreOn orc node.chainActive nBlockHeight mn.vin.prevout ∧
      Queried nBlockHeight node (calculateScore orc node mn nBlockHeight).2 := by
  obtain ⟨hhash, hasked, hlist⟩ := getBlockHash_spec hsound
  unfold calculateScore scoreOn
  by_cases hchain : node.chainActive = []
  · rw [if_pos hchain, hchain, hashFor_nil]
    exact ⟨rfl, Queried.refl _ _⟩
  · rw [if_neg hchain, ← hhash]
    generalize getBlockHash node (toInt32 nBlockHeight) = answer at hasked hlist ⊢
    obtain ⟨hash?, after⟩ := answer
    cases hash? with
    | none => exact ⟨rfl, hasked, hlist⟩
    | some hash => exact ⟨rfl, hasked, hlist⟩

/-- The score as it is compared for a rank. -/
def compactOn (chain : List Block) (nBlockHeight : ℤ) (prevout : COutPoint) : ℤ :=
  compact (scoreOn orc chain nBlockHeight prevout)

theorem scanForWinner_spec (hsound : Sound node (toInt32 nBlockHeight)) (minProtocol score : ℤ)
    (winner : Option CMasternode) (l : List CMasternode) :
    (scanForWinner orc nBlockHeight minProtocol score winner l node).1 =
        champion (fun mn => compactOn orc node.chainActive nBlockHeight mn.vin.prevout) score winner
          (l.filter (counts minProtocol)) ∧
      Queried nBlockHeight node
        (scanForWinner orc nBlockHeight minProtocol score winner l node).2 := by
  induction l generalizing node score winner with
  | nil => exact ⟨rfl, Queried.refl _ _⟩
  | cons mn rest ih =>
    rw [scanForWinner]
    by_cases hcounts : counts minProtocol mn = true
    · rw [if_pos hcounts, List.filter_cons_of_pos hcounts, champion]
      obtain ⟨hscore, hqueried⟩ := calculateScore_spec orc hsound mn
      have hkey : compactOn orc node.chainActive nBlockHeight mn.vin.prevout =
          compact (calculateScore orc node mn nBlockHeight).1 := by rw [compactOn, hscore]
      have hrest := ih (hqueried.asked.sound hsound)
      rw [hqueried.asked.chain] at hrest
      rw [hkey]
      generalize calculateScore orc node mn nBlockHeight = answer at hqueried hrest ⊢
      obtain ⟨n, after⟩ := answer
      by_cases hlt : score < compact n
      · simp only [if_pos hlt]
        exact ⟨(hrest _ _).1, hqueried.trans (hrest _ _).2⟩
      · simp only [if_neg hlt]
        exact ⟨(hrest _ _).1, hqueried.trans (hrest _ _).2⟩
    · rw [if_neg hcounts, List.filter_cons_of_neg hcounts]
      exact ih hsound score winner

theorem rankScores_spec (env : Env) (hsound : Sound node (toInt32 nBlockHeight)) (minProtocol : ℤ)
    (fOnlyActive : Bool) (l : List CMasternode) :
    (rankScores orc env nBlockHeight minProtocol fOnlyActive l node).1 =
        (l.filter (isRanked env minProtocol fOnlyActive)).map
          (fun mn => (compactOn orc node.chainActive nBlockHeight mn.vin.prevout, mn.vin)) ∧
      Queried nBlockHeight node
        (rankScores orc env nBlockHeight minProtocol fOnlyActive l node).2 := by
  induction l generalizing node with
  | nil => exact ⟨rfl, Queried.refl _ _⟩
  | cons mn rest ih =>
    rw [rankScores]
    by_cases hranked : isRanked env minProtocol fOnlyActive mn = true
    · rw [if_pos hranked, List.filter_cons_of_pos hranked, List.map_cons]
      obtain ⟨hscore, hqueried⟩ := calculateScore_spec orc hsound mn
      have hrest := ih (hqueried.asked.sound hsound)
      rw [hqueried.asked.chain] at hrest
      refine ⟨?_, hqueried.trans hrest.2⟩
      rw [compactOn, ← hscore]
      exact congrArg _ hrest.1
    · rw [if_neg hranked, List.filter_cons_of_neg hranked]
      exact ih hsound

end Scores

end Scrypta.Ranking
