import Mathlib.Data.BitVec
import Scrypta.MasternodeAgreement
import Scrypta.MasternodeOwners

/-! What a node has been through before it ranks the masternodes: changes of the chain and of the
list, and earlier queries. -/

namespace Scrypta.Ranking

open Runs Standings

inductive Event
  | setTip (chainActive : List Block)
  | setList (vMasternodes : List CMasternode)
  | getBlockHash (nBlockHeight : ℤ)
  | calculateScore (mn : CMasternode) (nBlockHeight : ℤ)
  | getMasternodeRank (env : Env) (vin : CTxIn) (nBlockHeight minProtocol : ℤ) (fOnlyActive : Bool)
  | getCurrentMasterNode (env : Env) (nBlockHeight minProtocol : ℤ)
  | getNextMasternodeInQueueForPayment (env : Env) (nBlockHeight : ℤ) (fFilterSigTime : Bool)

section Histories

variable (orc : Oracles) (srt : Sorting)

def step (node : Node) : Event → Node
  | .setTip chainActive => { node with chainActive := chainActive }
  | .setList vMasternodes => { node with vMasternodes := vMasternodes }
  | .getBlockHash nBlockHeight => (getBlockHash node (toInt32 nBlockHeight)).2
  | .calculateScore mn nBlockHeight => (calculateScore orc node mn nBlockHeight).2
  | .getMasternodeRank env vin nBlockHeight minProtocol fOnlyActive =>
    (getMasternodeRank orc srt env node vin nBlockHeight minProtocol fOnlyActive).2
  | .getCurrentMasterNode env nBlockHeight minProtocol =>
    (getCurrentMasterNode orc env node nBlockHeight minProtocol).2
  | .getNextMasternodeInQueueForPayment env nBlockHeight fFilterSigTime =>
    (getNextMasternodeInQueueForPayment orc srt env node nBlockHeight fFilterSigTime).2

/-- A node that has just been started. -/
def Node.start (chainActive : List Block) (vMasternodes : List CMasternode) : Node :=
  ⟨chainActive, .empty, vMasternodes⟩

/-- No block is replaced below a height that has been asked for, no height below 0 is asked for,
and the list has one entry for an outpoint. -/
def Careful (node : Node) : Event → Prop
  | .setTip chainActive =>
    ∀ k, node.mapCacheBlockHashes.count k = true →
      hashBelow chainActive k = hashBelow node.chainActive k
  | .setList vMasternodes => Distinct vMasternodes
  | .getBlockHash nBlockHeight => 0 ≤ toInt32 nBlockHeight
  | .calculateScore _ nBlockHeight => 0 ≤ toInt32 nBlockHeight
  | .getMasternodeRank _ _ nBlockHeight _ _ => 0 ≤ toInt32 nBlockHeight
  | .getCurrentMasterNode _ nBlockHeight _ => 0 ≤ toInt32 nBlockHeight
  | .getNextMasternodeInQueueForPayment _ nBlockHeight _ => 0 ≤ toInt32 (nBlockHeight - 100)

/-- What is remembered is on the chain. -/
structure Fresh (node : Node) : Prop where
  cached : ∀ k hash, node.mapCacheBlockHashes.find k = some hash →
    0 ≤ k ∧ hashBelow node.chainActive k = some hash
  distinct : Distinct node.vMasternodes

variable {orc} {srt} {node node' : Node}

theorem Fresh.sound (h : Fresh node) (nBlockHeight : ℤ) : Sound node nBlockHeight := by
  intro hash hfind
  obtain ⟨hpos, hhash⟩ := h.cached _ hash hfind
  rw [hashFor, if_neg (by omega), hhash]

theorem Fresh.asked (h : Fresh node) {nBlockHeight : ℤ} (hpos : 0 ≤ nBlockHeight)
    (hasked : Asked nBlockHeight node node') (hdistinct : Distinct node'.vMasternodes) :
    Fresh node' := by
  refine ⟨fun k hash hfind => ?_, hdistinct⟩
  rw [hasked.chain]
  rcases hasked.cache k hash hfind with hold | ⟨rfl, hnew⟩
  · exact h.cached k hash hold
  · have hkey : 0 ≤ heightKey node.chainActive nBlockHeight := by
      rw [heightKey]
      split
      · cases hchain : node.chainActive with
        | nil =>
          rw [hchain, hashFor_nil] at hnew
          cases hnew
        | cons tip pprev => simp
      · exact hpos
    rw [hashFor, if_neg (by omega)] at hnew
    exact ⟨hkey, hnew⟩

theorem fresh_start (chainActive : List Block) {vMasternodes : List CMasternode}
    (h : Distinct vMasternodes) : Fresh (.start chainActive vMasternodes) :=
  ⟨fun k hash hfind => by simp [Node.start] at hfind, h⟩

theorem getCurrentMasterNode_spec (orc : Oracles) (env : Env) {nBlockHeight : ℤ}
    (hsound : Sound node (toInt32 nBlockHeight)) (minProtocol : ℤ) :
    Asked (toInt32 nBlockHeight) node
        (getCurrentMasterNode orc env node nBlockHeight minProtocol).2 ∧
      (getCurrentMasterNode orc env node nBlockHeight minProtocol).2.vMasternodes =
        node.vMasternodes.map (·.check env) := by
  have hqueried := (scanForWinner_spec orc (hsound.checkAll env) minProtocol 0 none
    (checkAll env node).vMasternodes).2
  exact ⟨⟨hqueried.asked.chain, hqueried.asked.cache⟩, hqueried.list⟩

theorem getNext_spec (orc : Oracles) (srt : Sorting) (env : Env) {nBlockHeight : ℤ}
    (hsound : Sound node (toInt32 (nBlockHeight - 100))) (hdistinct : Distinct node.vMasternodes)
    (fFilterSigTime : Bool) :
    Asked (toInt32 (nBlockHeight - 100)) node
        (getNextMasternodeInQueueForPayment orc srt env node nBlockHeight fFilterSigTime).2 ∧
      Distinct (getNextMasternodeInQueueForPayment orc srt env node nBlockHeight
        fFilterSigTime).2.vMasternodes := by
  have hpay : ∀ {last : List (ℤ × CTxIn) × ℕ × Node}, Turned env node last.2.2 →
      Asked (toInt32 (nBlockHeight - 100)) node
          (payBest orc srt env last.2.2 nBlockHeight last.1).2 ∧
        Distinct (payBest orc srt env last.2.2 nBlockHeight last.1).2.vMasternodes := by
    intro last hturned
    obtain ⟨hasked, hlist⟩ := payBest_asked orc srt env
      ((hturned.asked _).sound hsound) last.1
    rw [hlist]
    exact ⟨(hturned.asked _).trans hasked, (hturned.distinct hdistinct).map check_vin⟩
  have hfirst := collect_turned orc env node nBlockHeight fFilterSigTime
  have hagain := hfirst.trans (collect_turned orc env
    (collect orc env node nBlockHeight fFilterSigTime).2.2 nBlockHeight false)
  rw [getNext_eq]
  apply hpay
  split
  · exact hagain
  · exact hfirst

theorem fresh_step (h : Fresh node) (e : Event) (he : Careful node e) :
    Fresh (step orc srt node e) := by
  cases e with
  | setTip chainActive =>
    refine ⟨fun k hash hfind => ?_, h.distinct⟩
    obtain ⟨hpos, hhash⟩ := h.cached k hash hfind
    have hkept := he k (Dict.count_eq_true.mpr ⟨hash, hfind⟩)
    exact ⟨hpos, hkept.trans hhash⟩
  | setList vMasternodes => exact ⟨h.cached, he⟩
  | getBlockHash nBlockHeight =>
    obtain ⟨-, hasked, hlist⟩ := getBlockHash_spec (h.sound (toInt32 nBlockHeight))
    exact h.asked he hasked (hlist ▸ h.distinct)
  | calculateScore mn nBlockHeight =>
    have hqueried := (calculateScore_spec orc (h.sound (toInt32 nBlockHeight)) mn).2
    exact h.asked he hqueried.asked (hqueried.list ▸ h.distinct)
  | getMasternodeRank env vin nBlockHeight minProtocol fOnlyActive =>
    obtain ⟨-, hasked, f, hf, hlist⟩ := getMasternodeRank_spec orc srt env
      (h.sound (toInt32 nBlockHeight)) vin minProtocol fOnlyActive
    exact h.asked he hasked (hlist ▸ h.distinct.map hf)
  | getCurrentMasterNode env nBlockHeight minProtocol =>
    obtain ⟨hasked, hlist⟩ := getCurrentMasterNode_spec orc env
      (h.sound (toInt32 nBlockHeight)) minProtocol
    exact h.asked he hasked (hlist ▸ h.distinct.map check_vin)
  | getNextMasternodeInQueueForPayment env nBlockHeight fFilterSigTime =>
    obtain ⟨hasked, hdistinct⟩ := getNext_spec orc srt env
      (h.sound (toInt32 (nBlockHeight - 100))) h.distinct fFilterSigTime
    exact h.asked he hasked hdistinct

variable (orc srt)

/-- What is read off both nodes for a height is the same, where no tie decides. -/
structure Agree (a b : Node) : Prop where
  score : ∀ mn nBlockHeight,
    (calculateScore orc a mn nBlockHeight).1 = (calculateScore orc b mn nBlockHeight).1
  rank : ∀ env vin nBlockHeight minProtocol fOnlyActive,
    RankApart orc env a vin nBlockHeight minProtocol fOnlyActive →
      (getMasternodeRank orc srt env a vin nBlockHeight minProtocol fOnlyActive).1 =
        (getMasternodeRank orc srt env b vin nBlockHeight minProtocol fOnlyActive).1
  current : ∀ env nBlockHeight minProtocol, WinnerApart orc env a nBlockHeight minProtocol →
    (getCurrentMasterNode orc env a nBlockHeight minProtocol).1 =
      (getCurrentMasterNode orc env b nBlockHeight minProtocol).1
  next : ∀ env nBlockHeight fFilterSigTime, WaitsApart orc env a →
    (getNextMasternodeInQueueForPayment orc srt env a nBlockHeight fFilterSigTime).1 =
      (getNextMasternodeInQueueForPayment orc srt env b nBlockHeight fFilterSigTime).1

variable {orc srt}

theorem Fresh.agree {a b : Node} (ha : Fresh a) (hb : Fresh b) (h : Alike a b) :
    Agree orc srt a b where
  score mn nBlockHeight := by
    rw [(calculateScore_spec orc (ha.sound (toInt32 nBlockHeight)) mn).1,
      (calculateScore_spec orc (hb.sound (toInt32 nBlockHeight)) mn).1, h.chain]
  rank _ _ _ _ _ hapart := h.getMasternodeRank (ha.sound _) (hb.sound _) hapart
  current _ _ _ hapart := h.getCurrentMasterNode (ha.sound _) (hb.sound _) hapart
  next _ _ fFilterSigTime hapart :=
    h.getNext ha.distinct (ha.sound _) (hb.sound _) hapart fFilterSigTime

variable (orc srt)

/-- Two nodes with one chain and one list agree, whatever careful histories they have. -/
theorem histories_agree {chain chain' : List Block} {list list' : List CMasternode}
    {es es' : List Event} (hlist : Distinct list) (hlist' : Distinct list')
    (hes : Meets (step orc srt) Careful (.start chain list) es)
    (hes' : Meets (step orc srt) Careful (.start chain' list') es')
    (h : Alike (run (step orc srt) (.start chain list) es)
      (run (step orc srt) (.start chain' list') es')) :
    Agree orc srt (run (step orc srt) (.start chain list) es)
      (run (step orc srt) (.start chain' list') es') := by
  have hfresh : Fresh (run (step orc srt) (.start chain list) es) :=
    run_invariant (I := Fresh) (fun node e hnode he => fresh_step hnode e he)
      (fresh_start chain hlist) hes
  have hfresh' : Fresh (run (step orc srt) (.start chain' list') es') :=
    run_invariant (I := Fresh) (fun node e hnode he => fresh_step hnode e he)
      (fresh_start chain' hlist') hes'
  exact hfresh.agree hfresh' h

end Histories

section Samples

/-- A hash that adds the masternode's number to that of the block. -/
def sampleOracles : Oracles where
  toOracles := Masternodes.sampleNames
  hashBlock := fun _ => 0
  hashBlockAux := fun hash aux => hash + aux

def insertionSort : Sorting where
  run := List.insertionSort fun s t => t.1 ≤ s.1
  perm := List.perm_insertionSort _
  sorted := by
    intro l
    have htotal : Std.Total fun s t : ℤ × CTxIn => t.1 ≤ s.1 := ⟨fun s t => le_total t.1 s.1⟩
    have htrans : IsTrans (ℤ × CTxIn) fun s t => t.1 ≤ s.1 := ⟨fun _ _ _ h h' => h'.trans h⟩
    exact List.pairwise_insertionSort _ l

def sampleEnv : Env where
  toEnv := Masternodes.sampleEnv 1600003600
  sporks := ⟨.empty, 1600003600⟩
  mapMasternodeBlocks := .empty

def sampleEntry (hash : Uint256) : CMasternode where
  toCMasternode := .ofBroadcast { Masternodes.sampleBroadcast with
    vin := Masternodes.sampleVin hash }
  cacheInputAge := 0
  cacheInputAgeBlock := 0

/-- Three blocks above the genesis block; the second one is given. -/
def sampleChain (hash : Uint256) : List Block := [⟨13, 300⟩, ⟨hash, 200⟩, ⟨11, 100⟩, ⟨10, 0⟩]

theorem histories_agree_sample :
    Agree sampleOracles insertionSort
      (run (step sampleOracles insertionSort)
        (.start (sampleChain 12) [sampleEntry 1, sampleEntry 2])
        [.setTip (sampleChain 22), .getBlockHash 3])
      (run (step sampleOracles insertionSort) (.start (sampleChain 22) [])
        [.setList [sampleEntry 2, sampleEntry 1]]) := by
  refine histories_agree sampleOracles insertionSort (by decide) (by decide) ⟨?_, ?_, trivial⟩
    ⟨?_, trivial⟩ ⟨?_, ?_⟩
  · intro k hk
    simp [Node.start, Dict.count] at hk
  · exact (by decide : (0 : ℤ) ≤ toInt32 3)
  · exact (by decide : Distinct [sampleEntry 2, sampleEntry 1])
  · rfl
  · exact List.Perm.swap _ _ _

set_option maxRecDepth 2000 in
/-- Two nodes with one chain and one list. The first has asked for a height whose block was then
replaced, and gives another score. With equal scores the order of the list decides the rank. -/
theorem histories_differ :
    (let a := run (step sampleOracles insertionSort) (.start (sampleChain 12) [sampleEntry 1])
        [.calculateScore (sampleEntry 1) 3, .setTip (sampleChain 22)]
      let b := Node.start (sampleChain 22) [sampleEntry 1]
      Alike a b ∧ (calculateScore sampleOracles a (sampleEntry 1) 3).1 = 13 ∧
        (calculateScore sampleOracles b (sampleEntry 1) 3).1 = 23) ∧
    (let a := Node.start (sampleChain (2 ^ 200)) [sampleEntry 1, sampleEntry 2]
      let b := Node.start (sampleChain (2 ^ 200)) [sampleEntry 2, sampleEntry 1]
      Alike a b ∧
        (getMasternodeRank sampleOracles insertionSort sampleEnv a (Masternodes.sampleVin 1) 3 70920
          false).1 = 1 ∧
        (getMasternodeRank sampleOracles insertionSort sampleEnv b (Masternodes.sampleVin 1) 3 70920
          false).1 = 2) := by
  refine ⟨⟨⟨rfl, List.Perm.refl _⟩, ?_, ?_⟩, ⟨rfl, List.Perm.swap _ _ _⟩, ?_, ?_⟩
  · decide
  · decide
  · decide
  · decide

end Samples

end Scrypta.Ranking
