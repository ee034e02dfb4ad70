import Scrypta.BlockIndexRuns
import Scrypta.StakeModifier

/-! A clean restart: the entries are written, and a new process reads them and computes the rest
anew. -/

namespace Scrypta.BlockIndex

open Validation (CDiskBlockIndex)

/-! The records are read. -/

section Guts

variable {par : Params} {n : Node} {d : CDiskBlockIndex} {blockTree : Dict Uint256 CDiskBlockIndex}

/-- The pointer that a record gives to its entry. -/
def prevOf (d : CDiskBlockIndex) : Option Uint256 :=
  if d.hashPrev = 0 then none else some d.hashPrev

/-- A record that stops no loading. -/
def Loads (par : Params) (d : CDiskBlockIndex) : Prop :=
  d.getBlockHash par.ctx ≠ 0 ∧
    (d.nHeight ≤ par.nLastPOWBlock →
      par.checkProofOfWork (d.getBlockHash par.ctx) d.nBits = true)

instance (par : Params) (d : CDiskBlockIndex) : Decidable (Loads par d) :=
  inferInstanceAs (Decidable (_ ∧ _))

/-- The index after one more record. -/
def readRecord (par : Params) (n : Node) (d : CDiskBlockIndex) : Node :=
  let m := n.mapBlockIndex.insert (d.getBlockHash par.ctx) {}
  let m := if d.hashPrev = 0 then m else m.insert d.hashPrev {}
  ({ n with mapBlockIndex := m.modify (d.getBlockHash par.ctx) (·.load d (prevOf d)) } :
    Node).insertStake (({} : Entry).load d (prevOf d))

theorem insertBlockIndex_zero (m : BlockMap) : insertBlockIndex m 0 = (m, none) := if_pos rfl

theorem insertBlockIndex_ne (m : BlockMap) {hash : Uint256} (h : hash ≠ 0) :
    insertBlockIndex m hash = (m.insert hash {}, some hash) := if_neg h

theorem loadRecord_eq (n : Node) (hnext : d.hashNext = 0) :
    loadRecord par n d = if Loads par d then some (readRecord par n d) else none := by
  unfold loadRecord
  dsimp only
  by_cases hzero : d.getBlockHash par.ctx = 0
  · have hnot : ¬ Loads par d := fun h => h.1 hzero
    rw [if_neg hnot, hzero, insertBlockIndex_zero]
    exact if_pos rfl
  · have hload : (d.nHeight ≤ par.nLastPOWBlock ∧
        par.checkProofOfWork (d.getBlockHash par.ctx) d.nBits = false) ↔ ¬ Loads par d := by
      simp only [Loads, ne_eq, hzero, not_false_iff, true_and, Classical.not_imp,
        Bool.not_eq_true]
    have hprev : insertBlockIndex (n.mapBlockIndex.insert (d.getBlockHash par.ctx) {}) d.hashPrev =
        (if d.hashPrev = 0 then n.mapBlockIndex.insert (d.getBlockHash par.ctx) {}
          else (n.mapBlockIndex.insert (d.getBlockHash par.ctx) {}).insert d.hashPrev {},
          prevOf d) := by
      rw [insertBlockIndex, prevOf]
      split_ifs <;> rfl
    rw [insertBlockIndex_ne _ hzero]
    dsimp only
    rw [hprev, hnext]
    dsimp only
    rw [insertBlockIndex_zero, if_neg (Option.some_ne_none _)]
    by_cases hloads : Loads par d
    · rw [if_neg fun h => hload.mp h hloads, if_pos hloads]
      rfl
    · rw [if_pos (hload.mpr hloads), if_neg hloads]

/-- The loading stops at the first record that does not pass. -/
theorem foldlM_loadRecord {records : List CDiskBlockIndex} (n : Node)
    (hnext : ∀ d ∈ records, d.hashNext = 0) :
    records.foldlM (loadRecord par) n =
      if ∀ d ∈ records, Loads par d then some (records.foldl (readRecord par) n) else none := by
  induction records generalizing n with
  | nil => simp
  | cons d records ih =>
    rw [List.foldlM_cons, loadRecord_eq n (hnext d List.mem_cons_self)]
    have hrest := ih (readRecord par n d) fun d' hd' => hnext d' (List.mem_cons_of_mem d hd')
    by_cases hd : Loads par d
    · rw [if_pos hd, Option.bind_eq_bind, Option.bind_some, hrest, List.foldl_cons]
      simp [hd]
    · rw [if_neg hd]
      simp [hd]

/-- What is known of the index after some records: their entries, empty entries for their
predecessors, and the stakes. -/
structure Reading (par : Params) (done : List CDiskBlockIndex) (n : Node) : Prop where
  read : ∀ d ∈ done, n.find (d.getBlockHash par.ctx) = some (({} : Entry).load d (prevOf d))
  unread : ∀ hash, (∀ d ∈ done, d.getBlockHash par.ctx ≠ hash) →
    n.find hash = none ∨ n.find hash = some {} ∧ ∃ d ∈ done, prevOf d = some hash
  stakes : ∀ x, x ∈ n.setStakeSeen ↔ ∃ d ∈ done, d.nFlags &&& 1 ≠ 0 ∧
    x = (d.prevoutStake, d.nStakeTime)

theorem mem_insertStake (n : Node) (e : Entry) (x : COutPoint × ℕ) :
    x ∈ (n.insertStake e).setStakeSeen ↔
      x ∈ n.setStakeSeen ∨ e.isProofOfStake = true ∧ x = (e.prevoutStake, e.nStakeTime) := by
  unfold Node.insertStake
  split_ifs with hstake
  · simp [hstake, or_comm]
  · simp [hstake]

theorem find_insertStake (n : Node) (e : Entry) (hash : Uint256) :
    (n.insertStake e).find hash = n.find hash := by
  unfold Node.insertStake
  split_ifs <;> rfl

theorem find_readRecord
    (hold : n.find (d.getBlockHash par.ctx) = none ∨ n.find (d.getBlockHash par.ctx) = some {})
    (hash : Uint256) :
    (readRecord par n d).find hash =
      if hash = d.getBlockHash par.ctx then some (({} : Entry).load d (prevOf d))
      else if prevOf d = some hash then some ((n.find hash).getD {})
      else n.find hash := by
  have hentry : (n.find (d.getBlockHash par.ctx)).getD {} = ({} : Entry) := by
    rcases hold with h | h <;> rw [h] <;> rfl
  have hfind (x : Uint256) : (n.mapBlockIndex.insert (d.getBlockHash par.ctx) {}).find x =
      if x = d.getBlockHash par.ctx then some {} else n.find x := by
    rw [Dict.find_insert]
    change (if _ then some ((n.find (d.getBlockHash par.ctx)).getD {}) else _) = _
    rw [hentry]
    rfl
  have hprev (m : BlockMap) (x : Uint256) :
      (if d.hashPrev = 0 then m else m.insert d.hashPrev {}).find x =
        if prevOf d = some x then some ((m.find x).getD {}) else m.find x := by
    rw [prevOf]
    by_cases hzero : d.hashPrev = 0
    · rw [if_pos hzero, if_pos hzero, if_neg (Option.some_ne_none x).symm]
    · rw [if_neg hzero, if_neg hzero, Dict.find_insert]
      by_cases hp : x = d.hashPrev
      · rw [hp, if_pos rfl, if_pos rfl]
      · rw [if_neg hp, if_neg fun h => hp (Option.some.inj h).symm]
  unfold readRecord
  dsimp only
  rw [find_insertStake]
  change Dict.find (Dict.modify _ _ _) hash = _
  rw [Dict.find_modify]
  by_cases hx : hash = d.getBlockHash par.ctx
  · rw [if_pos hx, if_pos hx, hprev, hfind, if_pos rfl]
    split_ifs <;> rfl
  · rw [if_neg hx, if_neg hx, hprev, hfind, if_neg hx]

theorem Reading.readRecord {done : List CDiskBlockIndex} (h : Reading par done n)
    (hnew : ∀ d' ∈ done, d'.getBlockHash par.ctx ≠ d.getBlockHash par.ctx) :
    Reading par (done ++ [d]) (readRecord par n d) := by
  have hold : n.find (d.getBlockHash par.ctx) = none ∨
      n.find (d.getBlockHash par.ctx) = some {} := (h.unread _ hnew).imp_right And.left
  constructor
  · intro d' hd'
    rw [find_readRecord hold]
    rcases List.mem_append.mp hd' with hd' | hd'
    · rw [if_neg (hnew d' hd'), h.read d' hd']
      split_ifs <;> rfl
    · rw [List.mem_singleton.mp hd', if_pos rfl]
  · intro hash hnot
    have hdone : ∀ d' ∈ done, d'.getBlockHash par.ctx ≠ hash :=
      fun d' hd' => hnot d' (List.mem_append_left _ hd')
    have hd : hash ≠ d.getBlockHash par.ctx :=
      (hnot d (List.mem_append_right _ (List.mem_singleton_self d))).symm
    rw [find_readRecord hold, if_neg hd]
    by_cases hp : prevOf d = some hash
    · rw [if_pos hp]
      refine .inr ⟨?_, d, List.mem_append_right _ (List.mem_singleton_self d), hp⟩
      rcases h.unread hash hdone with hnone | ⟨hempty, -⟩
      · rw [hnone]
        rfl
      · rw [hempty]
        rfl
    · rw [if_neg hp]
      exact (h.unread hash hdone).imp_right fun ⟨hempty, d', hd', hp'⟩ =>
        ⟨hempty, d', List.mem_append_left _ hd', hp'⟩
  · intro x
    rw [BlockIndex.readRecord, mem_insertStake]
    have hkind : (({} : Entry).load d (prevOf d)).isProofOfStake = true ↔ d.nFlags &&& 1 ≠ 0 :=
      decide_eq_true_iff
    rw [hkind]
    change x ∈ n.setStakeSeen ∨ d.nFlags &&& 1 ≠ 0 ∧ x = (d.prevoutStake, d.nStakeTime) ↔ _
    rw [h.stakes]
    simp only [List.mem_append, List.mem_singleton, or_and_right, exists_or, exists_eq_left]

/-- The records of a tree of blocks. -/
structure Records (par : Params) (blockTree : Dict Uint256 CDiskBlockIndex) : Prop where
  keyed : ∀ hash d, blockTree.find hash = some d → d.getBlockHash par.ctx = hash
  prev : ∀ hash d p, blockTree.find hash = some d → prevOf d = some p →
    (blockTree.find p).isSome
  next : ∀ hash d, blockTree.find hash = some d → d.hashNext = 0

/-- What the records make of the index. -/
structure Read (blockTree : Dict Uint256 CDiskBlockIndex) (n : Node) : Prop where
  find : ∀ hash, n.find hash =
    (blockTree.find hash).map fun d => ({} : Entry).load d (prevOf d)
  stakes : ∀ x, x ∈ n.setStakeSeen ↔ ∃ hash d, blockTree.find hash = some d ∧
    d.nFlags &&& 1 ≠ 0 ∧ x = (d.prevoutStake, d.nStakeTime)
  chain : n.chainActive = []
  candidates : n.setBlockIndexCandidates = []
  unlinked : n.mapBlocksUnlinked = []

theorem Records.read (h : Records par blockTree) :
    Read blockTree ((blockTree.toList.map Prod.snd).foldl (readRecord par) {}) := by
  have hrest (n : Node) (done rest : List CDiskBlockIndex) (hn : Reading par done n)
      (hnodup : ((done ++ rest).map (·.getBlockHash par.ctx)).Nodup) :
      Reading par (done ++ rest) (rest.foldl (readRecord par) n) := by
    induction rest generalizing n done with
    | nil =>
      rw [List.append_nil]
      exact hn
    | cons d rest ih =>
      have hsplit : done ++ d :: rest = (done ++ [d]) ++ rest := by simp
      rw [hsplit] at hnodup ⊢
      refine ih _ _ (hn.readRecord fun d' hd' => ?_) hnodup
      rw [List.append_assoc, List.map_append, List.nodup_append] at hnodup
      exact hnodup.2.2 _ (List.mem_map_of_mem hd') _ (by simp)
  have hmem (d : CDiskBlockIndex) :
      d ∈ blockTree.toList.map Prod.snd ↔ ∃ hash, blockTree.find hash = some d := by
    constructor
    · intro hd
      obtain ⟨⟨hash, d⟩, hx, rfl⟩ := List.mem_map.mp hd
      exact ⟨hash, Dict.mem_toList.mp hx⟩
    · rintro ⟨hash, hd⟩
      exact List.mem_map.mpr ⟨(hash, d), Dict.mem_toList.mpr hd, rfl⟩
  have hkeys : (blockTree.toList.map Prod.snd).map (·.getBlockHash par.ctx) =
      blockTree.toList.map Prod.fst := by
    rw [List.map_map]
    refine List.map_congr_left fun x hx => ?_
    exact h.keyed x.1 x.2 (Dict.mem_toList.mp hx)
  have hempty : Reading par [] ({} : Node) := by
    refine ⟨fun d hd => absurd hd List.not_mem_nil, fun hash _ => .inl (Dict.find_empty hash), ?_⟩
    intro x
    simp
  have hread := hrest {} [] (blockTree.toList.map Prod.snd) hempty (by
    rw [List.nil_append, hkeys]
    exact blockTree.nodup_keys)
  rw [List.nil_append] at hread
  have hkeep (l : List CDiskBlockIndex) (n : Node) :
      (l.foldl (readRecord par) n).chainActive = n.chainActive ∧
      (l.foldl (readRecord par) n).setBlockIndexCandidates = n.setBlockIndexCandidates ∧
      (l.foldl (readRecord par) n).mapBlocksUnlinked = n.mapBlocksUnlinked := by
    induction l generalizing n with
    | nil => exact ⟨rfl, rfl, rfl⟩
    | cons d l ih =>
      obtain ⟨hchain, hcandidates, hunlinked⟩ := ih (readRecord par n d)
      have hone : (readRecord par n d).chainActive = n.chainActive ∧
          (readRecord par n d).setBlockIndexCandidates = n.setBlockIndexCandidates ∧
          (readRecord par n d).mapBlocksUnlinked = n.mapBlocksUnlinked := by
        unfold readRecord Node.insertStake
        dsimp only
        split_ifs <;> exact ⟨rfl, rfl, rfl⟩
      exact ⟨hchain.trans hone.1, hcandidates.trans hone.2.1, hunlinked.trans hone.2.2⟩
  obtain ⟨hchain, hcandidates, hunlinked⟩ := hkeep (blockTree.toList.map Prod.snd) {}
  refine ⟨fun hash => ?_, fun x => ?_, hchain, hcandidates, hunlinked⟩
  · cases hd : blockTree.find hash with
    | some d =>
      have hfind := hread.read d ((hmem d).mpr ⟨hash, hd⟩)
      rw [h.keyed hash d hd] at hfind
      exact hfind
    | none =>
      have hother : ∀ d ∈ blockTree.toList.map Prod.snd, d.getBlockHash par.ctx ≠ hash := by
        rintro d hmemd rfl
        obtain ⟨x, hx⟩ := (hmem d).mp hmemd
        rw [h.keyed x d hx, hx] at hd
        cases hd
      rcases hread.unread hash hother with hnone | ⟨-, d, hmemd, hp⟩
      · exact hnone
      · obtain ⟨x, hx⟩ := (hmem d).mp hmemd
        have hsome := h.prev x d hash hx hp
        rw [hd] at hsome
        cases hsome
  · rw [hread.stakes]
    constructor
    · rintro ⟨d, hmemd, hstake, rfl⟩
      obtain ⟨hash, hd⟩ := (hmem d).mp hmemd
      exact ⟨hash, d, hd, hstake, rfl⟩
    · rintro ⟨hash, d, hd, hstake, rfl⟩
      exact ⟨d, (hmem d).mpr ⟨hash, hd⟩, hstake, rfl⟩

/-- The loading succeeds if and only if every record passes. -/
theorem Records.loadBlockIndexGuts (h : Records par blockTree) :
    loadBlockIndexGuts par blockTree =
      if ∀ d ∈ blockTree.toList.map Prod.snd, Loads par d then
        some ((blockTree.toList.map Prod.snd).foldl (readRecord par) {})
      else none := by
  refine foldlM_loadRecord {} fun d hd => ?_
  obtain ⟨⟨hash, d⟩, hx, rfl⟩ := List.mem_map.mp hd
  exact h.next hash d (Dict.mem_toList.mp hx)

end Guts

/-! The rest is computed. -/

/-- An entry without the number that only the running process has. -/
def Entry.unnumbered (e : Entry) : Entry := { e with nSequenceId := 0 }

/-- An entry as it is read, before anything is computed. -/
def Entry.bare (e : Entry) : Entry :=
  { e with nSequenceId := 0, nChainWork := 0, nChainTx := 0, pskip := none }

/-- Half way through the entries: those in `done` are as in `n`. -/
structure Recalculating (n : Node) (done : List Uint256) (k : Node) : Prop where
  ready : ∀ x ∈ done, k.find x = (n.find x).map Entry.unnumbered
  rest : ∀ x, x ∉ done → k.find x = (n.find x).map Entry.bare
  candidates : ∀ x, x ∈ k.setBlockIndexCandidates ↔ x ∈ done ∧ ∃ e, n.find x = some e ∧
    e.isValid blockValidTransactions = true ∧ (e.nChainTx ≠ 0 ∨ e.pprev = none)
  unlinked : ∀ p x, (p, x) ∈ k.mapBlocksUnlinked ↔ x ∈ done ∧ ∃ e, n.find x = some e ∧
    e.pprev = some p ∧ e.hasData = true ∧ nChainTxBelow n.mapBlockIndex e = 0

section Recalculating

variable {par : Params} {proc : Process} {n k : Node} {hash : Uint256} {e : Entry}
  {done : List Uint256}

theorem Recalculating.parent_eq (h : Recalculating n done k) :
    parent k.mapBlockIndex = parent n.mapBlockIndex := by
  funext x
  have hcases : k.find x = (n.find x).map Entry.unnumbered ∨
      k.find x = (n.find x).map Entry.bare := by
    by_cases hx : x ∈ done
    · exact .inl (h.ready x hx)
    · exact .inr (h.rest x hx)
  change (k.find x).bind _ = (n.find x).bind _
  rcases hcases with hx | hx <;> rw [hx] <;> cases n.find x <;> rfl

theorem Recalculating.find_pprev (h : Recalculating n done k) (hkept : Kept par [] n)
    (he : n.find hash = some e)
    (hbelow : ∀ x ex, n.find x = some ex → ex.nHeight < e.nHeight → x ∈ done) {p : Uint256}
    (hp : e.pprev = some p) :
    ∃ ep, n.find p = some ep ∧ k.find p = some ep.unnumbered ∧ e.nHeight = ep.nHeight + 1 := by
  obtain ⟨ep, hep, hnext⟩ := hkept.tree.forest.find_pprev he hp
  have hfind : n.find p = some ep := hep
  refine ⟨ep, hfind, ?_, hnext⟩
  rw [h.ready p (hbelow p ep hfind (by omega)), hfind, Option.map_some]

theorem Recalculating.nChainTxBelow_eq (h : Recalculating n done k) (hkept : Kept par [] n)
    (he : n.find hash = some e)
    (hbelow : ∀ x ex, n.find x = some ex → ex.nHeight < e.nHeight → x ∈ done) {e' : Entry}
    (he' : e'.pprev = e.pprev) :
    nChainTxBelow k.mapBlockIndex e' = nChainTxBelow n.mapBlockIndex e := by
  cases hp : e.pprev with
  | none => rw [nChainTxBelow_of_none hp, nChainTxBelow_of_none (he'.trans hp)]
  | some p =>
    obtain ⟨ep, hep, hkp, -⟩ := h.find_pprev hkept he hbelow hp
    rw [nChainTxBelow_of_find hp hep, nChainTxBelow_of_find (he'.trans hp) hkp]
    rfl

/-- With everything below it done, an entry gets what it had. -/
theorem Recalculating.recalc (h : Recalculating n done k) (hkept : Kept par [] n)
    (he : n.find hash = some e)
    (hbelow : ∀ x ex, n.find x = some ex → ex.nHeight < e.nHeight → x ∈ done) :
    e.bare.recalc k.mapBlockIndex = e.unnumbered := by
  have hwork : (e.pprev.bind k.find).elim 0 (·.nChainWork) + getBlockProof e.nBits =
      e.nChainWork := by
    rw [hkept.tree.work hash e he, nChainWorkBelow]
    congr 1
    cases hp : e.pprev with
    | none => rfl
    | some p =>
      obtain ⟨ep, hep, hkp, -⟩ := h.find_pprev hkept he hbelow hp
      have hfind : n.mapBlockIndex.find p = some ep := hep
      rw [Option.bind_some, Option.bind_some, hkp, hfind]
      rfl
  have hnumber : (if e.hasData then
      if e.pprev.isNone then e.nTx
      else if nChainTxBelow k.mapBlockIndex e.bare ≠ 0 then
        nChainTxBelow k.mapBlockIndex e.bare + e.nTx
      else 0
    else 0) = e.nChainTx := by
    rw [h.nChainTxBelow_eq hkept he hbelow (show e.bare.pprev = e.pprev from rfl),
      hkept.linked.rule hash e he List.not_mem_nil]
    rfl
  have hskip : (if e.pprev.isSome then buildSkip k.mapBlockIndex e.bare else none) = e.pskip := by
    rw [hkept.tree.pskip hash e he, skipTarget]
    cases hp : e.pprev with
    | none => rfl
    | some p =>
      obtain ⟨ep, hep, hkp, hnext⟩ := h.find_pprev hkept he hbelow hp
      have hp' : e.bare.pprev = some p := hp
      have hlt := getSkipHeight_lt (show 0 < e.nHeight by omega)
      have hskips : Pointers.Skips (parent k.mapBlockIndex) (skip k.mapBlockIndex) getSkipHeight p
          ep.nHeight := by
        intro i b hi hb
        rw [h.parent_eq] at hb ⊢
        obtain ⟨eb, heb, hheight⟩ := hkept.tree.forest.find_follow hep hb
        have hfindb : n.find b = some eb := heb
        have hkb : k.find b = some eb.unnumbered := by
          rw [h.ready b (hbelow b eb hfindb (by omega)), hfindb, Option.map_some]
        have hsame : skip k.mapBlockIndex b = skip n.mapBlockIndex b := by
          change (k.find b).bind _ = (n.find b).bind _
          rw [hkb, hfindb]
          rfl
        rw [hsame]
        exact hkept.tree.forest.skips hep i b hi hb
      have hheight : e.bare.nHeight = e.nHeight := rfl
      rw [Option.isSome_some, if_pos rfl, buildSkip, hp', Option.bind_some, Option.bind_some,
        getAncestor, show k.mapBlockIndex.find p = some ep.unnumbered from hkp, Option.bind_some,
        hheight, if_neg (by change ¬((ep.nHeight : ℤ) < _ ∨ _); omega), Int.toNat_natCast]
      have htarget : e.nHeight - 1 - getSkipHeight e.nHeight =
          ep.nHeight - getSkipHeight e.nHeight := by omega
      rw [htarget, ← h.parent_eq]
      exact Pointers.walk_eq (fun w hw => takesSkip_low hw) hskips (Nat.lt_succ_self ep.nHeight)
  have hrecalc : e.bare.recalc k.mapBlockIndex = { e with
      nSequenceId := 0
      nChainWork := (e.pprev.bind k.find).elim 0 (·.nChainWork) + getBlockProof e.nBits
      nChainTx :=
        if e.hasData then
          if e.pprev.isNone then e.nTx
          else if nChainTxBelow k.mapBlockIndex e.bare ≠ 0 then
            nChainTxBelow k.mapBlockIndex e.bare + e.nTx
          else 0
        else 0
      pskip := if e.pprev.isSome then buildSkip k.mapBlockIndex e.bare else none } := rfl
  rw [hrecalc, hwork, hnumber, hskip]
  rfl

theorem Recalculating.loadEntry (h : Recalculating n done k) (hkept : Kept par [] n)
    (he : n.find hash = some e) (hnew : hash ∉ done)
    (hbelow : ∀ x ex, n.find x = some ex → ex.nHeight < e.nHeight → x ∈ done) :
    Recalculating n (done ++ [hash]) (loadEntry k hash) := by
  have hfind : k.find hash = some e.bare := by
    rw [h.rest hash hnew, he, Option.map_some]
  have hrecalc := h.recalc hkept he hbelow
  have hbelowTx : nChainTxBelow k.mapBlockIndex e.unnumbered = nChainTxBelow n.mapBlockIndex e :=
    h.nChainTxBelow_eq hkept he hbelow rfl
  have hmem (x : Uint256) : x ∈ done ++ [hash] ↔ x ∈ done ∨ x = hash := by simp
  unfold BlockIndex.loadEntry
  rw [hfind]
  dsimp only
  rw [hrecalc, hbelowTx]
  constructor
  · intro x hx
    change (k.mapBlockIndex.set hash e.unnumbered).find x = _
    rw [Dict.find_set]
    split_ifs with hxh
    · rw [hxh, he, Option.map_some]
    · exact h.ready x (((hmem x).mp hx).resolve_right hxh)
  · intro x hx
    rw [hmem, not_or] at hx
    change (k.mapBlockIndex.set hash e.unnumbered).find x = _
    rw [Dict.find_set, if_neg hx.2]
    exact h.rest x hx.1
  · intro x
    have hown : (e.unnumbered.isValid blockValidTransactions &&
        (e.unnumbered.nChainTx != 0 || e.unnumbered.pprev.isNone)) = true ↔
        e.isValid blockValidTransactions = true ∧ (e.nChainTx ≠ 0 ∨ e.pprev = none) := by
      change (e.isValid blockValidTransactions && (e.nChainTx != 0 || e.pprev.isNone)) = true ↔ _
      simp
    have hcand : x ∈ (if (e.unnumbered.isValid blockValidTransactions &&
        (e.unnumbered.nChainTx != 0 || e.unnumbered.pprev.isNone)) = true then
          hash :: k.setBlockIndexCandidates else k.setBlockIndexCandidates) ↔
        x ∈ k.setBlockIndexCandidates ∨ x = hash ∧ e.isValid blockValidTransactions = true ∧
          (e.nChainTx ≠ 0 ∨ e.pprev = none) := by
      rw [← hown]
      split_ifs with hcase
      · simp [hcase, or_comm]
      · simp [hcase]
    refine hcand.trans ?_
    rw [h.candidates, hmem]
    constructor
    · rintro (⟨hx, hex⟩ | ⟨rfl, hvalid⟩)
      · exact ⟨.inl hx, hex⟩
      · exact ⟨.inr rfl, e, he, hvalid⟩
    · rintro ⟨hx | rfl, e', he', hvalid⟩
      · exact .inl ⟨hx, e', he', hvalid⟩
      · cases he.symm.trans he'
        exact .inr ⟨rfl, hvalid⟩
  · intro p x
    refine Iff.trans (b := (p, x) ∈ k.mapBlocksUnlinked ∨ x = hash ∧ e.pprev = some p ∧
      e.hasData = true ∧ nChainTxBelow n.mapBlockIndex e = 0) ?_ ?_
    · have hpprev : e.unnumbered.pprev = e.pprev := rfl
      have hdata : e.unnumbered.hasData = e.hasData := rfl
      dsimp only
      rw [hpprev, hdata]
      cases e.pprev with
      | none => simp
      | some q =>
        dsimp only
        split_ifs with hcase
        · rw [Bool.and_eq_true, beq_iff_eq] at hcase
          simp [hcase.1, hcase.2, and_comm, eq_comm]
        · have hno : ¬ (e.hasData = true ∧ nChainTxBelow n.mapBlockIndex e = 0) := by
            simpa using hcase
          simp [hno]
    rw [h.unlinked, hmem]
    constructor
    · rintro (⟨hx, hex⟩ | ⟨rfl, hwaits⟩)
      · exact ⟨.inl hx, hex⟩
      · exact ⟨.inr rfl, e, he, hwaits⟩
    · rintro ⟨hx | rfl, e', he', hwaits⟩
      · exact .inl ⟨hx, e', he', hwaits⟩
      · cases he.symm.trans he'
        exact .inr ⟨rfl, hwaits⟩

/-- The entries in an order in which no entry comes before one that is lower. -/
theorem Recalculating.foldl_loadEntry (hkept : Kept par [] n) {rest : List Uint256}
    (h : Recalculating n done k) (hnodup : (done ++ rest).Nodup)
    (hall : ∀ x, (n.find x).isSome ↔ x ∈ done ++ rest)
    (hsorted : rest.Pairwise fun a b =>
      heightOf n.mapBlockIndex a ≤ heightOf n.mapBlockIndex b) :
    Recalculating n (done ++ rest) (rest.foldl BlockIndex.loadEntry k) := by
  induction rest generalizing done k with
  | nil =>
    rw [List.append_nil]
    exact h
  | cons x rest ih =>
    have hsplit : done ++ x :: rest = (done ++ [x]) ++ rest := by simp
    obtain ⟨e, he⟩ := Option.isSome_iff_exists.mp ((hall x).mpr (by simp))
    have hnew : x ∉ done := by
      rw [List.nodup_append] at hnodup
      exact fun hx => hnodup.2.2 x hx x List.mem_cons_self rfl
    have hbelow : ∀ y ey, n.find y = some ey → ey.nHeight < e.nHeight → y ∈ done := by
      intro y ey hy hlt
      have hmem := (hall y).mp (by rw [hy]; rfl)
      rcases List.mem_append.mp hmem with hmem | hmem
      · exact hmem
      · have hheight {z ez} (hz : n.find z = some ez) :
            heightOf n.mapBlockIndex z = ez.nHeight := by
          have hz' : n.mapBlockIndex.find z = some ez := hz
          rw [heightOf, hz', Option.elim_some]
        rcases List.mem_cons.mp hmem with rfl | hmem
        · cases he.symm.trans hy
          omega
        · have hle := (List.pairwise_cons.mp hsorted).1 y hmem
          rw [hheight he, hheight hy] at hle
          omega
    rw [List.foldl_cons, hsplit]
    rw [hsplit] at hnodup hall
    exact ih (h.loadEntry hkept he hnew hbelow) hnodup hall (List.pairwise_cons.mp hsorted).2

end Recalculating

/-! What a restart should not change. -/

/-- The block and all its ancestors have been received. -/
def Received (m : BlockMap) (hash : Uint256) : Prop :=
  ∀ x ∈ lineOf m hash, ∀ ex, m.find x = some ex → ex.hasData = true

/-- What `CheckBlockIndex` asserts of the candidates and of the blocks that wait, and what
`setStakeSeen` is to hold. -/
structure Consistent (proc : Process) (n : Node) : Prop where
  candidate : ∀ hash t, n.tip = some t → (n.find hash).isSome →
    workLess proc n.mapBlockIndex hash t = false → Received n.mapBlockIndex hash →
    ¬ Blamed n.mapBlockIndex hash → hash ∈ n.setBlockIndexCandidates
  of_candidate : ∀ hash t, n.tip = some t → hash ∈ n.setBlockIndexCandidates →
    (n.find hash).isSome ∧ workLess proc n.mapBlockIndex hash t = false ∧
      Received n.mapBlockIndex hash
  unlinked : ∀ hash e p, n.find hash = some e → e.pprev = some p → e.hasData = true →
    ¬ Received n.mapBlockIndex hash → ¬ Blamed n.mapBlockIndex hash →
    (p, hash) ∈ n.mapBlocksUnlinked
  of_unlinked : ∀ hash p, (p, hash) ∈ n.mapBlocksUnlinked → ∃ e, n.find hash = some e ∧
    e.pprev = some p ∧ e.hasData = true ∧ ¬ Received n.mapBlockIndex hash
  stakes : ∀ x, x ∈ n.setStakeSeen ↔ ∃ hash e, n.find hash = some e ∧
    e.isProofOfStake = true ∧ x = (e.prevoutStake, e.nStakeTime)

def lineageOf (m : BlockMap) (hash : Uint256) : Option CBlockIndex :=
  (m.find hash).map fun e => lineage m e.nHeight hash e

/-- The active chain as the stake checks read it. -/
def chainOf (n : Node) : CChain := .setTip (n.tip.bind (lineageOf n.mapBlockIndex))

def nextModifier (par : Params) (proc : Process) (n : Node) (hash : Uint256) :
    Option (BitVec 64 × Bool) :=
  (lineageOf n.mapBlockIndex hash).map
    (Kernel.computeNextStakeModifier (kernelParams par proc) (trees n.mapBlockIndex))

/-- The process `proc` had the index `before`; the process `proc'` loaded `after`. -/
structure Transparent (par : Params) (proc proc' : Process) (before after : Node) : Prop where
  entries : ∀ hash, (after.find hash).map Entry.unnumbered =
    (before.find hash).map Entry.unnumbered
  ancestors : ∀ hash height, getAncestor after.mapBlockIndex hash height =
    getAncestor before.mapBlockIndex hash height
  chainActive : after.chainActive = before.chainActive
  consistent : Consistent proc' after
  modifiers : ∀ hash, nextModifier par proc' after hash = nextModifier par proc before hash
  kernels : ∀ nBits blockFrom txPrev prevout nTimeTx nHashDrift fCheck,
    Kernel.checkStakeKernelHash par.Hash (trees after.mapBlockIndex) (chainOf after) nBits
        blockFrom txPrev prevout nTimeTx nHashDrift fCheck =
      Kernel.checkStakeKernelHash par.Hash (trees before.mapBlockIndex) (chainOf before) nBits
        blockFrom txPrev prevout nTimeTx nHashDrift fCheck

/-- Nothing is in the entries that their records do not hold, every record passes when it is
read, and the literal lies where it lay. -/
def Restartable (par : Params) (proc proc' : Process) (n : Node) : Prop :=
  proc'.literal = proc.literal ∧ ∀ hash e, n.find hash = some e →
    hash ≠ 0 ∧ (e.nHeight ≤ par.nLastPOWBlock → par.checkProofOfWork hash e.nBits = true) ∧
      e.bnChainTrust = 0 ∧ e.nStakeModifierChecksum = 0 ∧ e.hashProofOfStake = 0 ∧
      ∀ d, n.blockTree.find hash = some d → d.nStatus = e.nStatus

section Restart

variable {par : Params} {proc proc' : Process} {n k : Node} {hash : Uint256} {e : Entry}

theorem eq_of_marked {d d' : CDiskBlockIndex} (h : marked d = marked d') :
    d = { d' with nStatus := d.nStatus } := by
  have heq := congrArg (fun x : CDiskBlockIndex => { x with nStatus := d.nStatus }) h
  exact heq

/-- After all entries are written, the records and the entries correspond. -/
theorem Saved.record_of_find (h : Saved [] n) (he : n.find hash = some e) :
    ∃ s, n.blockTree.find hash = some { e.disk with nStatus := s } := by
  obtain ⟨d, hd, hmarked⟩ := h.record hash e he List.not_mem_nil
  exact ⟨d.nStatus, hd.trans (congrArg some (eq_of_marked hmarked))⟩

theorem Saved.find_of_record (h : Saved [] n) {d : CDiskBlockIndex}
    (hd : n.blockTree.find hash = some d) :
    ∃ e, n.find hash = some e ∧ d = { e.disk with nStatus := d.nStatus } := by
  obtain ⟨e, he⟩ := Option.isSome_iff_exists.mp (h.known hash (by rw [hd]; rfl))
  obtain ⟨s, hs⟩ := h.record_of_find he
  cases hd.symm.trans hs
  exact ⟨e, he, rfl⟩

theorem Saved.records (h : Saved [] n) (hkept : Kept par [] n) : Records par n.blockTree where
  keyed hash d hd := by
    obtain ⟨e, he, heq⟩ := h.find_of_record hd
    rw [heq]
    exact hkept.tree.keyed hash e he
  prev hash d p hd hp := by
    obtain ⟨e, he, heq⟩ := h.find_of_record hd
    rw [heq] at hp
    have hpprev : e.pprev = some p := by
      unfold prevOf at hp
      split_ifs at hp with hzero
      have hprev : e.pprev.getD 0 = p := Option.some.inj hp
      cases hpprev : e.pprev with
      | none =>
        refine absurd ?_ hzero
        change e.pprev.getD 0 = 0
        rw [hpprev]
        rfl
      | some q =>
        rw [hpprev] at hprev
        rw [← hprev]
        rfl
    obtain ⟨ep, hep, -⟩ := hkept.tree.forest.find_pprev he hpprev
    obtain ⟨s, hs⟩ := h.record_of_find hep
    rw [hs]
    rfl
  next hash d hd := by
    obtain ⟨e, -, heq⟩ := h.find_of_record hd
    rw [heq]
    rfl

/-! The entries are sorted. -/

theorem mem_sortedByHeight (proc : Process) (m : BlockMap) (hash : Uint256) :
    hash ∈ sortedByHeight proc m ↔ (m.find hash).isSome := by
  rw [sortedByHeight, List.mem_insertionSort, Option.isSome_iff_exists]
  constructor
  · intro hx
    obtain ⟨⟨x, e⟩, hmem, rfl⟩ := List.mem_map.mp hx
    exact ⟨e, Dict.mem_toList.mp hmem⟩
  · rintro ⟨e, he⟩
    exact List.mem_map.mpr ⟨(hash, e), Dict.mem_toList.mpr he, rfl⟩

theorem nodup_sortedByHeight (proc : Process) (m : BlockMap) : (sortedByHeight proc m).Nodup :=
  (List.perm_insertionSort _ _).nodup_iff.mpr m.nodup_keys

theorem pairwise_sortedByHeight (proc : Process) (m : BlockMap) :
    (sortedByHeight proc m).Pairwise fun a b => heightOf m a ≤ heightOf m b := by
  have htotal : Std.Total fun a b : Uint256 =>
      heightOf m a < heightOf m b ∨ heightOf m a = heightOf m b ∧ proc.address a ≤ proc.address b :=
    ⟨fun a b => by omega⟩
  have htrans : IsTrans Uint256 fun a b : Uint256 =>
      heightOf m a < heightOf m b ∨ heightOf m a = heightOf m b ∧ proc.address a ≤ proc.address b :=
    ⟨fun a b c _ _ => by omega⟩
  refine (List.pairwise_insertionSort _ _).imp ?_
  intro a b h
  omega

/-! What is left at its default. -/

/-- The members that the loading fills from the record or not at all. -/
def Defaults (blockTree : Dict Uint256 CDiskBlockIndex) (k : Node) : Prop :=
  ∀ hash e, k.find hash = some e → ∃ d, blockTree.find hash = some d ∧ e.nStatus = d.nStatus ∧
    e.bnChainTrust = 0 ∧ e.nStakeModifierChecksum = 0 ∧ e.hashProofOfStake = 0

theorem Defaults.loadEntry {blockTree : Dict Uint256 CDiskBlockIndex}
    (h : Defaults blockTree k) (hash : Uint256) : Defaults blockTree (loadEntry k hash) := by
  unfold BlockIndex.loadEntry
  cases he : k.find hash with
  | none => exact h
  | some e =>
    intro x ex hx
    rcases Dict.find_set_cases hx with ⟨rfl, rfl⟩ | ⟨-, hx⟩
    · exact h x e he
    · exact h x ex hx

theorem Defaults.foldl {blockTree : Dict Uint256 CDiskBlockIndex} (l : List Uint256)
    (h : Defaults blockTree k) : Defaults blockTree (l.foldl BlockIndex.loadEntry k) := by
  induction l generalizing k with
  | nil => exact h
  | cons x l ih => exact ih (h.loadEntry x)

theorem Read.defaults {blockTree : Dict Uint256 CDiskBlockIndex} (h : Read blockTree k) :
    Defaults blockTree k := by
  intro x e he
  rw [h.find] at he
  obtain ⟨d, hd, rfl⟩ := Option.map_eq_some_iff.mp he
  exact ⟨d, hd, rfl, rfl, rfl, rfl⟩

/-- The node before the tip is set. -/
def recalculated (proc : Process) (n : Node) (blockTree : Dict Uint256 CDiskBlockIndex)
    (bestBlock : Uint256) : Node :=
  (sortedByHeight proc n.mapBlockIndex).foldl loadEntry
    { n with blockTree := blockTree, bestBlock := bestBlock }

theorem loadBlockIndexDB_eq (par : Params) (proc : Process)
    (blockTree : Dict Uint256 CDiskBlockIndex) (bestBlock : Uint256) :
    loadBlockIndexDB par proc blockTree bestBlock =
      (loadBlockIndexGuts par blockTree).bind fun n =>
        if ((recalculated proc n blockTree bestBlock).find bestBlock).isNone then
          some (recalculated proc n blockTree bestBlock)
        else if (pruneBlockIndexCandidates proc (setTip (recalculated proc n blockTree bestBlock)
            bestBlock)).setBlockIndexCandidates.isEmpty then none
        else some (pruneBlockIndexCandidates proc
          (setTip (recalculated proc n blockTree bestBlock) bestBlock)) := rfl

theorem loadBlockIndexDB_cases {blockTree : Dict Uint256 CDiskBlockIndex} {bestBlock : Uint256}
    {after : Node} (h : loadBlockIndexDB par proc blockTree bestBlock = some after) :
    ∃ n, loadBlockIndexGuts par blockTree = some n ∧
      after.mapBlockIndex = (recalculated proc n blockTree bestBlock).mapBlockIndex := by
  rw [loadBlockIndexDB_eq] at h
  obtain ⟨n, hn, h⟩ := Option.bind_eq_some_iff.mp h
  refine ⟨n, hn, ?_⟩
  split_ifs at h
  · cases h
    rfl
  · cases h
    rfl

theorem Saved.loads_iff (h : Saved [] n) (hkept : Kept par [] n) :
    (∀ d ∈ n.blockTree.toList.map Prod.snd, Loads par d) ↔ ∀ hash e, n.find hash = some e →
      hash ≠ 0 ∧ (e.nHeight ≤ par.nLastPOWBlock → par.checkProofOfWork hash e.nBits = true) := by
  constructor
  · intro hall hash e he
    obtain ⟨s, hs⟩ := h.record_of_find he
    have hloads := hall _ (List.mem_map.mpr ⟨(hash, _), Dict.mem_toList.mpr hs, rfl⟩)
    rw [Loads, (h.records hkept).keyed hash _ hs] at hloads
    exact hloads
  · intro hall d hd
    obtain ⟨⟨hash, d⟩, hx, rfl⟩ := List.mem_map.mp hd
    have hx := Dict.mem_toList.mp hx
    obtain ⟨e, he, heq⟩ := h.find_of_record hx
    rw [Loads, (h.records hkept).keyed hash d hx, heq]
    exact hall hash e he

/-- Every index has a block without a predecessor. -/
theorem Tree.exists_root {m : BlockMap} (h : Tree par m) :
    ∃ hash e, m.find hash = some e ∧ e.pprev = none ∧ e.nHeight = 0 := by
  obtain ⟨eg, heg⟩ := Option.isSome_iff_exists.mp h.genesis
  refine h.forest.induct (P := fun _ _ => ∃ hash e, m.find hash = some e ∧ e.pprev = none ∧
    e.nHeight = 0) (fun hash e he ih => ?_) heg
  rcases h.rooted hash e he with ⟨-, hnone, hzero⟩ | ⟨p, ep, hp, hep, -⟩
  · exact ⟨hash, e, he, hnone, hzero⟩
  · exact ih p ep hp hep

theorem restartable_of_transparent (hkept : Kept par [] n) (hsaved : Saved [] n) {after : Node}
    (hload : loadBlockIndexDB par proc' n.blockTree n.bestBlock = some after)
    (h : Transparent par proc proc' n after) : Restartable par proc proc' n := by
  obtain ⟨n₀, hguts, hmap⟩ := loadBlockIndexDB_cases hload
  have hrecords := hsaved.records hkept
  rw [hrecords.loadBlockIndexGuts] at hguts
  split_ifs at hguts with hall
  have hread : Read n.blockTree n₀ := Option.some.inj hguts ▸ hrecords.read
  have hloads := (hsaved.loads_iff hkept).mp hall
  have hdefaults : Defaults n.blockTree after := by
    have hfold := Defaults.foldl (sortedByHeight proc' n₀.mapBlockIndex)
      (k := { n₀ with blockTree := n.blockTree, bestBlock := n.bestBlock }) hread.defaults
    intro x e he
    rw [Node.find, hmap] at he
    exact hfold x e he
  refine ⟨?_, fun hash e he => ⟨(hloads hash e he).1, (hloads hash e he).2, ?_⟩⟩
  · obtain ⟨hash, e, he, -, hzero⟩ := hkept.tree.exists_root
    have hentry := h.entries hash
    have hfind : n.find hash = some e := he
    rw [hfind, Option.map_some] at hentry
    obtain ⟨e', he', heq⟩ := Option.map_eq_some_iff.mp hentry
    have hzero' : e'.nHeight = 0 := (congrArg Entry.nHeight heq).trans hzero
    have hroot {m : BlockMap} {e : Entry} (he : m.find hash = some e) (hzero : e.nHeight = 0) :
        lineageOf m hash = some (.root (e.info hash)) := by
      rw [lineageOf, he, Option.map_some, hzero, lineage]
    have hnext := h.modifiers hash
    rw [nextModifier, nextModifier, hroot he hzero, hroot he' hzero', Option.map_some,
      Option.map_some, Option.some_inj] at hnext
    exact congrArg Prod.fst hnext
  · have hentry := h.entries hash
    rw [he, Option.map_some] at hentry
    obtain ⟨e', he', heq⟩ := Option.map_eq_some_iff.mp hentry
    obtain ⟨d, hd, hstatus, htrust, hsum, hproof⟩ := hdefaults hash e' he'
    have htrust' := congrArg Entry.bnChainTrust heq
    have hsum' := congrArg Entry.nStakeModifierChecksum heq
    have hproof' := congrArg Entry.hashProofOfStake heq
    have hstatus' := congrArg (fun e : Entry => e.nStatus) heq
    refine ⟨htrust'.symm.trans htrust, hsum'.symm.trans hsum, hproof'.symm.trans hproof, ?_⟩
    intro d' hd'
    cases hd.symm.trans hd'
    exact hstatus.symm.trans hstatus'

/-- What the loading gives, in terms of the index that was written. -/
structure Restored (proc : Process) (n after : Node) : Prop where
  entries : ∀ hash, (after.find hash).map Entry.unnumbered = (n.find hash).map Entry.unnumbered
  chainActive : after.chainActive = n.chainActive
  candidates : ∀ hash, hash ∈ after.setBlockIndexCandidates ↔ (∃ e, n.find hash = some e ∧
    e.isValid blockValidTransactions = true ∧ (e.nChainTx ≠ 0 ∨ e.pprev = none)) ∧
      after.tip.any (workLess proc after.mapBlockIndex hash) = false
  unlinked : ∀ p hash, (p, hash) ∈ after.mapBlocksUnlinked ↔ ∃ e, n.find hash = some e ∧
    e.pprev = some p ∧ e.hasData = true ∧ nChainTxBelow n.mapBlockIndex e = 0
  stakes : ∀ x, x ∈ after.setStakeSeen ↔ ∃ hash e, n.find hash = some e ∧
    e.isProofOfStake = true ∧ x = (e.prevoutStake, e.nStakeTime)

/-- The record of a restartable entry holds all of it. -/
theorem Restartable.load_eq (h : Restartable par proc proc' n) (hkept : Kept par [] n)
    (hsaved : Saved [] n) (he : n.find hash = some e) :
    (n.blockTree.find hash).map (fun d => ({} : Entry).load d (prevOf d)) = some e.bare := by
  obtain ⟨-, -, htrust, hsum, hproof, hstatus⟩ := h.2 hash e he
  obtain ⟨s, hs⟩ := hsaved.record_of_find he
  have hstatus' : s = e.nStatus := hstatus _ hs
  have hrecord : ({ e.disk with nStatus := s } : CDiskBlockIndex) = e.disk := by
    rw [hstatus']
    rfl
  have hprev : prevOf e.disk = e.pprev := by
    change (if e.pprev.getD 0 = 0 then none else some (e.pprev.getD 0)) = e.pprev
    cases hp : e.pprev with
    | none => exact if_pos rfl
    | some p =>
      obtain ⟨ep, hep, -⟩ := hkept.tree.forest.find_pprev he hp
      exact if_neg (h.2 p ep hep).1
  rw [hs, Option.map_some, hrecord, hprev]
  have hbare (t : Uint256) (c : BitVec 32) (p : Uint256) (ht : e.bnChainTrust = t)
      (hc : e.nStakeModifierChecksum = c) (hp : e.hashProofOfStake = p) : e.bare = { e.bare with
      bnChainTrust := t, nStakeModifierChecksum := c, hashProofOfStake := p } := by
    rw [← ht, ← hc, ← hp]
    rfl
  rw [hbare 0 0 0 htrust hsum hproof]
  rfl

theorem Restartable.recalculating (h : Restartable par proc proc' n) (hkept : Kept par [] n)
    (hsaved : Saved [] n) {n₀ : Node} (hread : Read n.blockTree n₀) :
    Recalculating n (sortedByHeight proc' n₀.mapBlockIndex)
      (recalculated proc' n₀ n.blockTree n.bestBlock) := by
  have hraw (x : Uint256) : n₀.find x = (n.find x).map Entry.bare := by
    rw [hread.find]
    cases hx : n.find x with
    | some e => exact h.load_eq hkept hsaved hx
    | none =>
      cases hd : n.blockTree.find x with
      | none => rfl
      | some d =>
        obtain ⟨e, he, -⟩ := hsaved.find_of_record hd
        cases hx.symm.trans he
  have hheight (x : Uint256) : heightOf n.mapBlockIndex x = heightOf n₀.mapBlockIndex x := by
    change (n.find x).elim 0 _ = (n₀.find x).elim 0 _
    rw [hraw]
    cases n.find x <;> rfl
  have hstart : Recalculating n []
      { n₀ with blockTree := n.blockTree, bestBlock := n.bestBlock } := by
    refine ⟨fun x hx => absurd hx List.not_mem_nil, fun x _ => hraw x, fun x => ?_, fun p x => ?_⟩
    · change x ∈ n₀.setBlockIndexCandidates ↔ _
      rw [hread.candidates]
      simp
    · change (p, x) ∈ n₀.mapBlocksUnlinked ↔ _
      rw [hread.unlinked]
      simp
  have hnodup := nodup_sortedByHeight proc' n₀.mapBlockIndex
  have hsorted := pairwise_sortedByHeight proc' n₀.mapBlockIndex
  have hmem := mem_sortedByHeight proc' n₀.mapBlockIndex
  unfold recalculated
  generalize sortedByHeight proc' n₀.mapBlockIndex = l at hnodup hsorted hmem ⊢
  refine hstart.foldl_loadEntry hkept hnodup (fun x => ?_) ?_
  · rw [List.nil_append, hmem]
    change _ ↔ (n₀.find x).isSome
    rw [hraw, Option.isSome_map]
  · refine hsorted.imp fun {a b} hab => ?_
    rwa [hheight, hheight]

theorem stakes_loadEntry (k : Node) (x : Uint256) :
    (loadEntry k x).setStakeSeen = k.setStakeSeen ∧
      (loadEntry k x).chainActive = k.chainActive := by
  unfold loadEntry
  split
  · exact ⟨rfl, rfl⟩
  · exact ⟨rfl, rfl⟩

theorem stakes_recalculated (proc : Process) (n : Node)
    (blockTree : Dict Uint256 CDiskBlockIndex) (bestBlock : Uint256) :
    (recalculated proc n blockTree bestBlock).setStakeSeen = n.setStakeSeen ∧
      (recalculated proc n blockTree bestBlock).chainActive = n.chainActive := by
  have hfold (l : List Uint256) (k : Node) :
      (l.foldl loadEntry k).setStakeSeen = k.setStakeSeen ∧
        (l.foldl loadEntry k).chainActive = k.chainActive := by
    induction l generalizing k with
    | nil => exact ⟨rfl, rfl⟩
    | cons x l ih =>
      obtain ⟨hstakes, hchain⟩ := ih (loadEntry k x)
      obtain ⟨hstakes', hchain'⟩ := stakes_loadEntry k x
      exact ⟨hstakes.trans hstakes', hchain.trans hchain'⟩
  exact hfold _ _

theorem SameTree.of_unnumbered {m m' : BlockMap}
    (h : ∀ x, (m'.find x).map Entry.unnumbered = (m.find x).map Entry.unnumbered) :
    SameTree m m' := by
  intro x
  have hmap := congrArg (Option.map Entry.fixed) (h x)
  rw [Option.map_map, Option.map_map] at hmap
  exact hmap

theorem Active.best (h : Active n) (hzero : ∀ e, n.find 0 ≠ some e) :
    (n.find n.bestBlock = none ∧ n.chainActive = []) ∨ ((n.find n.bestBlock).isSome ∧
      n.chainActive = (lineOf n.mapBlockIndex n.bestBlock).reverse) := by
  rcases h with ⟨hnil, hbest⟩ | ⟨hfind, hline, -⟩
  · refine .inl ⟨?_, hnil⟩
    rw [hbest]
    exact Option.eq_none_iff_forall_ne_some.mpr hzero
  · exact .inr ⟨hfind, hline⟩

theorem workLess_self (proc : Process) (m : BlockMap) (hash : Uint256) :
    workLess proc m hash hash = false := by
  unfold workLess
  cases m.find hash <;> simp

/-- A restartable index is loaded. -/
theorem Restartable.load (h : Restartable par proc proc' n) (hkept : Kept par [] n)
    (hsaved : Saved [] n) : ∃ after, loadBlockIndexDB par proc' n.blockTree n.bestBlock =
      some after ∧ Restored proc' n after := by
  have hrecords := hsaved.records hkept
  have hread := hrecords.read
  have hall := (hsaved.loads_iff hkept).mpr fun hash e he =>
    ⟨(h.2 hash e he).1, (h.2 hash e he).2.1⟩
  rw [loadBlockIndexDB_eq, hrecords.loadBlockIndexGuts, if_pos hall, Option.bind_some]
  have hready := h.recalculating hkept hsaved hread
  obtain ⟨hstakes, hchain⟩ := stakes_recalculated proc'
    ((n.blockTree.toList.map Prod.snd).foldl (readRecord par) {}) n.blockTree n.bestBlock
  generalize (n.blockTree.toList.map Prod.snd).foldl (readRecord par) {} = n₀ at *
  generalize recalculated proc' n₀ n.blockTree n.bestBlock = k at *
  have hdone (x : Uint256) (e : Entry) (he : n.find x = some e) :
      x ∈ sortedByHeight proc' n₀.mapBlockIndex := by
    obtain ⟨s, hs⟩ := hsaved.record_of_find he
    rw [mem_sortedByHeight]
    change (n₀.find x).isSome
    rw [hread.find, hs]
    rfl
  have hfind (x : Uint256) : k.find x = (n.find x).map Entry.unnumbered := by
    cases he : n.find x with
    | some e => exact (hready.ready x (hdone x e he)).trans (congrArg _ he)
    | none =>
      by_cases hx : x ∈ sortedByHeight proc' n₀.mapBlockIndex
      · exact (hready.ready x hx).trans (congrArg _ he)
      · exact (hready.rest x hx).trans (congrArg _ he)
  have hentries (x : Uint256) :
      (k.find x).map Entry.unnumbered = (n.find x).map Entry.unnumbered := by
    rw [hfind, Option.map_map]
    rfl
  have hcandidates (x : Uint256) : x ∈ k.setBlockIndexCandidates ↔ ∃ e, n.find x = some e ∧
      e.isValid blockValidTransactions = true ∧ (e.nChainTx ≠ 0 ∨ e.pprev = none) :=
    (hready.candidates x).trans ⟨And.right, fun hx => ⟨hx.elim fun e he => hdone x e he.1, hx⟩⟩
  have hunlinked (p x : Uint256) : (p, x) ∈ k.mapBlocksUnlinked ↔ ∃ e, n.find x = some e ∧
      e.pprev = some p ∧ e.hasData = true ∧ nChainTxBelow n.mapBlockIndex e = 0 :=
    (hready.unlinked p x).trans ⟨And.right, fun hx => ⟨hx.elim fun e he => hdone x e he.1, hx⟩⟩
  have hseen (x : COutPoint × ℕ) : x ∈ k.setStakeSeen ↔ ∃ hash e, n.find hash = some e ∧
      e.isProofOfStake = true ∧ x = (e.prevoutStake, e.nStakeTime) := by
    rw [hstakes, hread.stakes]
    constructor
    · rintro ⟨hash, d, hd, hstake, rfl⟩
      obtain ⟨e, he, heq⟩ := hsaved.find_of_record hd
      rw [heq] at hstake ⊢
      exact ⟨hash, e, he, decide_eq_true hstake, rfl⟩
    · rintro ⟨hash, e, he, hstake, rfl⟩
      obtain ⟨s, hs⟩ := hsaved.record_of_find he
      exact ⟨hash, _, hs, of_decide_eq_true hstake, rfl⟩
  rcases hkept.active.best fun e he => (h.2 0 e he).1 rfl with ⟨hnone, hnil⟩ | ⟨hsome, hline⟩
  · have hisNone : (k.find n.bestBlock).isNone := by
      rw [hfind, hnone]
      rfl
    have hempty : k.chainActive = [] := hchain.trans hread.chain
    rw [if_pos hisNone]
    refine ⟨k, rfl, hentries, hempty.trans hnil.symm, fun x => ?_, hunlinked, hseen⟩
    rw [hcandidates, Node.tip, hempty]
    exact (and_iff_left rfl).symm
  · obtain ⟨e, he⟩ := Option.isSome_iff_exists.mp hsome
    have hnotNone : ¬ (k.find n.bestBlock).isNone := by
      rw [hfind, he]
      exact Bool.false_ne_true
    have hs : SameTree n.mapBlockIndex k.mapBlockIndex := .of_unnumbered hentries
    have hmap : n.mapBlockIndex.find n.bestBlock = some e := he
    have hself := hkept.tree.self_mem_lineOf hmap
    have hchainActive : (setTip k n.bestBlock).chainActive = n.chainActive := by
      rw [hline, ← hs.lineOf_eq]
      rfl
    have htip : (setTip k n.bestBlock).tip = some n.bestBlock := by
      rw [Node.tip, hchainActive]
      rcases hkept.active.tip_eq with ⟨-, hnil⟩ | ⟨htip, -, -⟩
      · rw [hline, List.reverse_eq_nil_iff] at hnil
        rw [hnil] at hself
        exact absurd hself List.not_mem_nil
      · exact htip
    have hprune (x : Uint256) : x ∈ (pruneBlockIndexCandidates proc'
        (setTip k n.bestBlock)).setBlockIndexCandidates ↔ x ∈ k.setBlockIndexCandidates ∧
          workLess proc' k.mapBlockIndex x n.bestBlock = false := by
      rw [pruneBlockIndexCandidates, List.mem_filter, htip, Option.any_some, Bool.not_eq_true']
      rfl
    -- the tip itself is a candidate
    have hbest : n.bestBlock ∈ k.setBlockIndexCandidates := by
      have hactive (x : Uint256) (hx : x ∈ lineOf n.mapBlockIndex n.bestBlock) (ex : Entry)
          (hex : n.find x = some ex) : ex.hasData = true ∧ ex.failed = false :=
        hkept.active.hasData hex (hline ▸ List.mem_reverse.mpr hx)
      obtain ⟨hdata, hclear⟩ := hactive n.bestBlock hself e he
      have hnumber : e.nChainTx ≠ 0 :=
        (hkept.linked.received_iff hkept.tree hkept.ok hmap).mpr
          fun x hx ex hex => (hactive x hx ex hex).1
      refine (hcandidates _).mpr ⟨e, he, ?_, .inl hnumber⟩
      have hlevel := (hkept.ok _ e he).data.mp hdata
      rw [Entry.isValid, hclear]
      simpa [Entry.level] using hlevel
    have hnonempty : ¬ (pruneBlockIndexCandidates proc'
        (setTip k n.bestBlock)).setBlockIndexCandidates.isEmpty := by
      rw [List.isEmpty_iff]
      exact List.ne_nil_of_mem ((hprune _).mpr ⟨hbest, workLess_self _ _ _⟩)
    rw [if_neg hnotNone, if_neg hnonempty]
    refine ⟨_, rfl, hentries, hchainActive, fun x => ?_, hunlinked, hseen⟩
    rw [hprune, hcandidates]
    have htip' : (pruneBlockIndexCandidates proc' (setTip k n.bestBlock)).tip =
        some n.bestBlock := htip
    rw [htip', Option.any_some]
    rfl

/-! What is computed from the entries. -/

/-- Up to the sequence numbers the maps have the same entries. -/
def SameEntries (m m' : BlockMap) : Prop :=
  ∀ x, (m'.find x).map Entry.unnumbered = (m.find x).map Entry.unnumbered

theorem SameEntries.symm {m m' : BlockMap} (h : SameEntries m m') : SameEntries m' m :=
  fun x => (h x).symm

theorem SameEntries.map_eq {m m' : BlockMap} (h : SameEntries m m') {α : Type} {f : Entry → α}
    (hf : ∀ e, f e.unnumbered = f e) (x : Uint256) : (m'.find x).map f = (m.find x).map f := by
  have hmap := congrArg (Option.map f) (h x)
  have hcomp : f ∘ Entry.unnumbered = f := funext hf
  rwa [Option.map_map, Option.map_map, hcomp] at hmap

theorem SameEntries.find {m m' : BlockMap} (h : SameEntries m m') {x : Uint256} {e' : Entry}
    (he : m'.find x = some e') : ∃ e, m.find x = some e ∧ e.unnumbered = e'.unnumbered := by
  have hx := h x
  rw [he, Option.map_some] at hx
  exact Option.map_eq_some_iff.mp hx.symm

theorem SameEntries.getAncestor_eq {m m' : BlockMap} (h : SameEntries m m') (hash : Uint256)
    (height : ℤ) : getAncestor m' hash height = getAncestor m hash height := by
  have hparent : parent m' = parent m := (SameTree.of_unnumbered h).parent_eq
  have hskip : skip m' = skip m := by
    funext x
    have hx := congrArg (Option.bind · id) (h.map_eq (f := Entry.pskip) (fun _ => rfl) x)
    rw [Option.bind_map, Option.bind_map] at hx
    exact hx
  rw [getAncestor, getAncestor, hparent, hskip]
  have hheight := h.map_eq (f := Entry.nHeight) (fun _ => rfl) hash
  revert hheight
  cases m'.find hash with
  | none => cases m.find hash <;> simp
  | some e' =>
    cases m.find hash with
    | none => simp
    | some e =>
      intro hheight
      have hheight : e'.nHeight = e.nHeight := Option.some.inj hheight
      rw [Option.bind_some, Option.bind_some, hheight]

theorem SameEntries.lineage_eq {m m' : BlockMap} (h : SameEntries m m') (k : ℕ) {hash : Uint256}
    {e e' : Entry} (he : e.unnumbered = e'.unnumbered) :
    lineage m' k hash e' = lineage m k hash e := by
  induction k generalizing hash e e' with
  | zero => exact congrArg Lineage.root (congrArg (Entry.info hash) he).symm
  | succ k ih =>
    have hpprev := congrArg Entry.pprev he
    change e.pprev = e'.pprev at hpprev
    have hnode : e'.info hash = e.info hash := (congrArg (Entry.info hash) he).symm
    rw [lineage, lineage, hpprev, hnode]
    cases hp : e'.pprev with
    | none => rfl
    | some p =>
      rw [Option.bind_some, Option.bind_some]
      cases hep' : m'.find p with
      | none =>
        have hep := h p
        rw [hep', Option.map_none] at hep
        rw [Option.map_eq_none_iff.mp hep.symm]
        rfl
      | some ep' =>
        obtain ⟨ep, hep, heq⟩ := h.find hep'
        rw [hep]
        dsimp only [Option.map_some]
        rw [ih heq]

theorem SameEntries.lineageOf_eq {m m' : BlockMap} (h : SameEntries m m') (hash : Uint256) :
    lineageOf m' hash = lineageOf m hash := by
  rw [lineageOf, lineageOf]
  cases he' : m'.find hash with
  | none =>
    have hx := h hash
    rw [he', Option.map_none] at hx
    rw [Option.map_eq_none_iff.mp hx.symm]
    rfl
  | some e' =>
    obtain ⟨e, he, heq⟩ := h.find he'
    have hheight := congrArg Entry.nHeight heq
    change e.nHeight = e'.nHeight at hheight
    rw [he, Option.map_some, Option.map_some, h.lineage_eq _ heq, hheight]

theorem find_trees (m : BlockMap) (hash : Uint256) :
    (trees m).find hash = lineageOf m hash := by
  have hset := Dict.find_foldl_set (fun hash (e : Entry) => lineage m e.nHeight hash e) m
    Dict.empty hash
  refine hset.trans ?_
  rw [lineageOf]
  cases m.find hash <;> rfl

theorem SameEntries.received_iff {m m' : BlockMap} (h : SameEntries m m') (hash : Uint256) :
    Received m' hash ↔ Received m hash := by
  have hline := (SameTree.of_unnumbered h).lineOf_eq hash
  have hone {m m' : BlockMap} (h : SameEntries m m') (hline : lineOf m' hash = lineOf m hash)
      (hall : Received m hash) : Received m' hash := by
    intro x hx e' he'
    obtain ⟨e, he, heq⟩ := h.find he'
    have hdata := congrArg Entry.hasData heq
    exact hdata.symm.trans (hall x (hline ▸ hx) e he)
  exact ⟨hone h.symm hline.symm, hone h hline⟩

theorem SameEntries.blamed_iff {m m' : BlockMap} (h : SameEntries m m') (hash : Uint256) :
    Blamed m' hash ↔ Blamed m hash := by
  have hline := (SameTree.of_unnumbered h).lineOf_eq hash
  have hone {m m' : BlockMap} (h : SameEntries m m') (hline : lineOf m' hash = lineOf m hash)
      (hb : Blamed m' hash) : Blamed m hash := by
    obtain ⟨x, hx, e', he', hf⟩ := hb
    obtain ⟨e, he, heq⟩ := h.find he'
    have hvalid := congrArg Entry.failedValid heq
    exact ⟨x, hline ▸ hx, e, he, hvalid.trans hf⟩
  exact ⟨hone h hline, hone h.symm hline.symm⟩

/-- With the rules of the index, the sets that were filled are as they should be. -/
theorem Restored.consistent {after : Node} (h : Restored proc' n after) (hkept : Kept par [] n) :
    Consistent proc' after := by
  have hsame : SameEntries n.mapBlockIndex after.mapBlockIndex := h.entries
  have hreceived {x : Uint256} {e : Entry} (he : n.find x = some e) :
      e.nChainTx ≠ 0 ↔ Received after.mapBlockIndex x :=
    (hkept.linked.received_iff hkept.tree hkept.ok he).trans (hsame.received_iff x).symm
  have hdata {x : Uint256} {e : Entry} (he : n.find x = some e) :
      e.isValid blockValidTransactions = true ↔ e.failed = false ∧ e.hasData = true := by
    rw [Entry.isValid, Bool.and_eq_true, Bool.not_eq_true', decide_eq_true_iff]
    exact and_congr_right fun _ => (hkept.ok x e he).data.symm
  -- a block that was received itself waits for the others of its line
  have hwaits {x p : Uint256} {e : Entry} (he : n.find x = some e) (hp : e.pprev = some p)
      (hd : e.hasData = true) :
      nChainTxBelow n.mapBlockIndex e = 0 ↔ ¬ Received after.mapBlockIndex x := by
    rw [← hreceived he, not_not, hkept.linked.rule x e he List.not_mem_nil, numbered, if_pos hd,
      if_neg (by simp [hp])]
    have htx : e.nTx ≠ 0 := (hkept.ok x e he).txs.mp hd
    split_ifs with hne
    · exact iff_of_false hne (by omega)
    · exact iff_of_true (not_not.mp hne) rfl
  have hfind {x : Uint256} (hx : (after.find x).isSome) : ∃ e, n.find x = some e := by
    obtain ⟨e', he'⟩ := Option.isSome_iff_exists.mp hx
    obtain ⟨e, he, -⟩ := hsame.find he'
    exact ⟨e, he⟩
  have hfind' {x : Uint256} {e : Entry} (he : n.find x = some e) :
      ∃ e', after.find x = some e' ∧ e'.unnumbered = e.unnumbered := hsame.symm.find he
  constructor
  · intro hash t ht hsome hless hrec hblame
    obtain ⟨e, he⟩ := hfind hsome
    have hclear : e.failed = false := by
      cases hf : e.failed with
      | false => rfl
      | true => exact absurd ((hsame.blamed_iff hash).mpr (hkept.blamed_of_failed he hf)) hblame
    have hown : e.hasData = true :=
      (hsame.received_iff hash).mp hrec hash (hkept.tree.self_mem_lineOf he) e he
    refine (h.candidates hash).mpr ⟨⟨e, he, (hdata he).mpr ⟨hclear, hown⟩,
      .inl ((hreceived he).mpr hrec)⟩, ?_⟩
    rw [ht, Option.any_some]
    exact hless
  · intro hash t ht hmem
    obtain ⟨⟨e, he, hvalid, hnumber⟩, hless⟩ := (h.candidates hash).mp hmem
    rw [ht, Option.any_some] at hless
    obtain ⟨e', he', -⟩ := hfind' he
    refine ⟨by rw [he']; rfl, hless, (hreceived he).mp ?_⟩
    rcases hnumber with hne | hnone
    · exact hne
    · have hd := ((hdata he).mp hvalid).2
      rw [hkept.linked.rule hash e he List.not_mem_nil, numbered, if_pos hd,
        if_pos (by simp [hnone])]
      exact (hkept.ok hash e he).txs.mp hd
  · intro hash e' p he' hp hd hrec hblame
    obtain ⟨e, he, heq⟩ := hsame.find he'
    have hpprev := congrArg Entry.pprev heq
    have hdata' := congrArg Entry.hasData heq
    have hp' : e.pprev = some p := hpprev.trans hp
    have hd' : e.hasData = true := hdata'.trans hd
    exact (h.unlinked p hash).mpr ⟨e, he, hp', hd', (hwaits he hp' hd').mpr hrec⟩
  · intro hash p hmem
    obtain ⟨e, he, hp, hd, hbelow⟩ := (h.unlinked p hash).mp hmem
    obtain ⟨e', he', heq⟩ := hfind' he
    have hpprev := congrArg Entry.pprev heq
    have hdata' := congrArg Entry.hasData heq
    exact ⟨e', he', hpprev.trans hp, hdata'.trans hd, (hwaits he hp hd).mp hbelow⟩
  · intro x
    rw [h.stakes]
    constructor
    · rintro ⟨hash, e, he, hstake, rfl⟩
      obtain ⟨e', he', heq⟩ := hfind' he
      have hstake' := congrArg Entry.isProofOfStake heq
      have hpair := congrArg (fun e : Entry => (e.prevoutStake, e.nStakeTime)) heq
      exact ⟨hash, e', he', hstake'.trans hstake, hpair.symm⟩
    · rintro ⟨hash, e', he', hstake, rfl⟩
      obtain ⟨e, he, heq⟩ := hsame.find he'
      have hstake' := congrArg Entry.isProofOfStake heq
      have hpair := congrArg (fun e : Entry => (e.prevoutStake, e.nStakeTime)) heq
      exact ⟨hash, e, he, hstake'.trans hstake, hpair.symm⟩

theorem SameEntries.find_trees_eq {m m' : BlockMap} (h : SameEntries m m') (hash : Uint256) :
    (trees m').find hash = (trees m).find hash := by
  rw [find_trees, find_trees, h.lineageOf_eq]

theorem computeNextStakeModifier_eq (par : Params) {m m' : BlockMap} (h : SameEntries m m')
    (hliteral : proc'.literal = proc.literal) (b : CBlockIndex) :
    Kernel.computeNextStakeModifier (kernelParams par proc') (trees m') b =
      Kernel.computeNextStakeModifier (kernelParams par proc) (trees m) b := by
  apply Kernel.computeNextStakeModifier_congr
  · rfl
  · rfl
  · exact fun _ => hliteral
  · exact fun a _ => h.find_trees_eq a.getBlockHash

theorem getKernelStakeModifier_eq {m m' : BlockMap} (h : SameEntries m m') (c : CChain)
    (hash : Uint256) : Kernel.getKernelStakeModifier (trees m') c hash =
      Kernel.getKernelStakeModifier (trees m) c hash := by
  unfold Kernel.getKernelStakeModifier
  rw [h.find_trees_eq]

theorem Restored.transparent {after : Node} (h : Restored proc' n after) (hkept : Kept par [] n)
    (hliteral : proc'.literal = proc.literal) : Transparent par proc proc' n after := by
  have hsame : SameEntries n.mapBlockIndex after.mapBlockIndex := h.entries
  have hlineage : lineageOf after.mapBlockIndex = lineageOf n.mapBlockIndex :=
    funext hsame.lineageOf_eq
  have hchain : chainOf after = chainOf n := by
    rw [chainOf, chainOf, Node.tip, Node.tip, h.chainActive, hlineage]
  refine ⟨h.entries, hsame.getAncestor_eq, h.chainActive, h.consistent hkept, fun hash => ?_, ?_⟩
  · have hnext := funext (computeNextStakeModifier_eq par hsame hliteral)
    rw [nextModifier, nextModifier, hlineage, hnext]
  · intro nBits blockFrom txPrev prevout nTimeTx nHashDrift fCheck
    rw [hchain]
    exact Kernel.checkStakeKernelHash_congr (getKernelStakeModifier_eq hsame _ _) nBits txPrev
      prevout nTimeTx nHashDrift fCheck

end Restart

/-- After any run, the written index is loaded by another process as it was if and only if
nothing in it is left to its default, the records pass when they are read, no mark was left
unwritten, and the literal lies where it lay. -/
theorem restart_transparent_iff (par : Params) (proc proc' : Process) (pos : DiskPos)
    (evs : List Event) :
    (∃ after, loadBlockIndexDB par proc'
        (flushStateToDisk par (Runs.run (step par proc) (initBlockIndex par proc pos)
          evs)).blockTree
        (flushStateToDisk par (Runs.run (step par proc) (initBlockIndex par proc pos)
          evs)).bestBlock = some after ∧
      Transparent par proc proc' (flushStateToDisk par (Runs.run (step par proc)
        (initBlockIndex par proc pos) evs)) after) ↔
    Restartable par proc proc' (flushStateToDisk par (Runs.run (step par proc)
      (initBlockIndex par proc pos) evs)) := by
  have hkept := Kept.run par proc pos evs
  have hsaved := (Recorded.run par proc pos evs).flushStateToDisk hkept
  have hflushed := hkept.flushStateToDisk
  constructor
  · rintro ⟨after, hload, h⟩
    exact restartable_of_transparent hflushed hsaved hload h
  · intro h
    obtain ⟨after, hload, hrestored⟩ := h.load hflushed hsaved
    exact ⟨after, hload, hrestored.transparent hflushed h.1⟩

section Sample

private def firstTx : CTransaction := ⟨1, 1, [], [], 0⟩

/-- Headers are hashed to their nonces. -/
private def nonceContext : Validation.Context where
  hashQuark _ _ _ _ _ nNonce := nNonce.setWidth 256
  maxReorganizationDepth := 100
  checkpointAllows _ _ := true
  lastCheckpoint := none
  rejectMajority _ _ := false
  enforceMajority _ _ := false

private def twoBlocks : Params where
  Hash _ := 0
  modifierUpgradeBlock := 0
  nLastPOWBlock := 1000
  checkProofOfWork _ _ := true
  ctx := nonceContext
  genesis := { hash := 1, hashPrevBlock := 0, nTime := 1500000000, nBits := 0x1e0ffff0
               vtx := [firstTx], nNonce := 1 }
  genesis_prev := rfl
  genesis_vtx := by decide

private def secondBlock : CBlock :=
  { hash := 2, hashPrevBlock := 1, nTime := 1500000060, nBits := 0x1e0ffff0, vtx := [firstTx]
    nNonce := 2 }

private def sampleProcess : Process := ⟨0, fun _ => 0⟩

/-- A second block, mined and stored, with its record written. -/
private def secondStored : Node :=
  flushStateToDisk twoBlocks (Runs.run (step twoBlocks sampleProcess)
    (initBlockIndex twoBlocks sampleProcess ⟨0, 8⟩)
    [.acceptBlock secondBlock ⟨true, 0, true, true, true, some ⟨0, 300⟩⟩])

/-- The trust of a mined block does not survive the restart. -/
theorem restart_loses_trust :
    ¬ ∃ after, loadBlockIndexDB twoBlocks sampleProcess secondStored.blockTree
        secondStored.bestBlock = some after ∧
      Transparent twoBlocks sampleProcess sampleProcess secondStored after := by
  rintro ⟨after, hload, h⟩
  have hkept := Kept.run twoBlocks sampleProcess ⟨0, 8⟩
    [.acceptBlock secondBlock ⟨true, 0, true, true, true, some ⟨0, 300⟩⟩]
  have hsaved := (Recorded.run twoBlocks sampleProcess ⟨0, 8⟩
    [.acceptBlock secondBlock ⟨true, 0, true, true, true, some ⟨0, 300⟩⟩]).flushStateToDisk hkept
  have hall := restartable_of_transparent hkept.flushStateToDisk hsaved hload h
  have htrust : (secondStored.find 2).any (fun e => e.bnChainTrust ≠ 0) = true := by
    decide
  obtain ⟨e, he, hne⟩ := (Option.any_eq_true _ _).mp htrust
  exact absurd (hall.2 2 e he).2.2.1 (of_decide_eq_true hne)

end Sample

end Scrypta.BlockIndex
