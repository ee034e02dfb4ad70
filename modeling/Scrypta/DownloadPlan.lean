import Scrypta.IndexGrowth

/-! Which blocks a peer is asked for. The node remembers the best block that a peer has announced
and the last block that both have; from there it walks up towards the best block and plans what is
missing and not in flight, as far as a window reaches. -/

namespace Scrypta.DownloadPlan

open BlockIndex

abbrev NodeId := ℤ

def blockDownloadWindow : ℕ := 1024

/-- What the planning reads of the state of a peer. -/
structure CNodeState where
  pindexBestKnownBlock : Option Uint256 := none
  hashLastUnknownBlock : Uint256 := 0
  pindexLastCommonBlock : Option Uint256 := none
  deriving DecidableEq

section Availability

variable (m : BlockMap) (state : CNodeState)

def nChainWorkOf (hash : Uint256) : Uint256 := (m.find hash).elim 0 (·.nChainWork)

/-- The block is in the index and has work. -/
def hasWork (hash : Uint256) : Bool := (m.find hash).any fun e => 0 < e.nChainWork

def announced (hash : Uint256) : CNodeState :=
  if state.pindexBestKnownBlock.all fun best => nChainWorkOf m best ≤ nChainWorkOf m hash then
    { state with pindexBestKnownBlock := some hash }
  else state

def processBlockAvailability : CNodeState :=
  if state.hashLastUnknownBlock ≠ 0 ∧ hasWork m state.hashLastUnknownBlock = true then
    { announced m state state.hashLastUnknownBlock with hashLastUnknownBlock := 0 }
  else state

def updateBlockAvailability (hash : Uint256) : CNodeState :=
  let state := processBlockAvailability m state
  if hasWork m hash then announced m state hash else { state with hashLastUnknownBlock := hash }

end Availability

/-- The variables that the walk assigns. -/
structure Walk where
  vBlocks : List Uint256
  pindexLastCommonBlock : Uint256
  waitingfor : NodeId
  nodeStaller : NodeId

section Planning

variable (n : Node) (mapBlocksInFlight : Dict Uint256 NodeId) (nodeid : NodeId) (count : BitVec 32)

/-- `vToFetch`, filled from its last place down; `none` where a null pointer is followed, here and
below. -/
def fetch (m : BlockMap) : ℕ → Uint256 → Option (List (Uint256 × Entry))
  | 0, _ => some []
  | k + 1, pindex =>
    (m.find pindex).bind fun e =>
      (if k = 0 then some [] else e.pprev.bind (fetch m k)).map (· ++ [(pindex, e)])

/-- One block of `vToFetch`; an error is a `return`. -/
def visit (nWindowEnd : ℕ) (w : Walk) (pindex : Uint256 × Entry) : Except Walk Walk :=
  -- "We consider the chain that this peer is on invalid."
  if !pindex.2.isValid blockValidTree then .error w
  else if pindex.2.hasData then
    .ok (if pindex.2.nChainTx ≠ 0 then { w with pindexLastCommonBlock := pindex.1 } else w)
  else
    match mapBlocksInFlight.find pindex.1 with
    | none =>
      if nWindowEnd < pindex.2.nHeight then
        .error (if w.vBlocks.length = 0 ∧ w.waitingfor ≠ nodeid then
          { w with nodeStaller := w.waitingfor } else w)
      else if w.vBlocks.length + 1 = count.toNat then
        .error { w with vBlocks := w.vBlocks ++ [pindex.1] }
      else .ok { w with vBlocks := w.vBlocks ++ [pindex.1] }
    | some owner => .ok (if w.waitingfor = -1 then { w with waitingfor := owner } else w)

/-- How many blocks `vToFetch` gets. -/
def nToFetch (w : Walk) (nHeight nMaxHeight : ℕ) : ℕ :=
  min (nMaxHeight - nHeight) (max (toInt32 (count.toNat - w.vBlocks.length)) 128).toNat

/-- The turns of the outer loop; there are no more than there are heights left. -/
def walkLoop (best : Uint256) (nWindowEnd nMaxHeight : ℕ) : ℕ → Uint256 → Walk → Option Walk
  | 0, _, _ => none
  | turns + 1, pindexWalk, w =>
    (n.find pindexWalk).bind fun e =>
      if e.nHeight < nMaxHeight then
        let k := nToFetch count w e.nHeight nMaxHeight
        (getAncestor n.mapBlockIndex best (e.nHeight + k : ℕ)).bind fun pindexWalk =>
          (fetch n.mapBlockIndex k pindexWalk).bind fun vToFetch =>
            match vToFetch.foldlM (visit mapBlocksInFlight nodeid count nWindowEnd) w with
            | .error w => some w
            | .ok w => walkLoop best nWindowEnd nMaxHeight turns pindexWalk w
      else some w

/-- The last common block with a peer whose best known block is `best`. Without one so far, the
block of the active chain at its height is a guess. -/
def lastCommonBlock (state : CNodeState) (best : Uint256) : Option Uint256 :=
  let guess := match state.pindexLastCommonBlock with
    | some last => some last
    | none => n.chainActive[min (heightOf n.mapBlockIndex best) (n.chainActive.length - 1)]?
  (guess.bind fun last => lastCommonAncestor n.mapBlockIndex last best).join

def findNextBlocksToDownload (state : CNodeState) (vBlocks : List Uint256) (nodeStaller : NodeId) :
    Option (CNodeState × List Uint256 × NodeId) :=
  if count = 0 then some (state, vBlocks, nodeStaller)
  else
    let state := processBlockAvailability n.mapBlockIndex state
    match state.pindexBestKnownBlock with
    | none => some (state, vBlocks, nodeStaller)
    | some best =>
      n.tip.bind fun tip =>
        if nChainWorkOf n.mapBlockIndex best < nChainWorkOf n.mapBlockIndex tip then
          some (state, vBlocks, nodeStaller)
        else
          (lastCommonBlock n state best).bind fun start =>
            if start = best then
              some ({ state with pindexLastCommonBlock := some start }, vBlocks, nodeStaller)
            else
              let nWindowEnd := heightOf n.mapBlockIndex start + blockDownloadWindow
              let nMaxHeight := min (heightOf n.mapBlockIndex best) (nWindowEnd + 1)
              (walkLoop n mapBlocksInFlight nodeid count best nWindowEnd nMaxHeight
                (nMaxHeight + 1) start ⟨vBlocks, start, -1, nodeStaller⟩).map fun w =>
                  ({ state with pindexLastCommonBlock := some w.pindexLastCommonBlock },
                    w.vBlocks, w.nodeStaller)

end Planning

/-! The node with its peers. -/

structure System where
  node : Node
  mapNodeState : Dict NodeId CNodeState := Dict.empty

/-- What happens to the index, and what concerns a peer. Which blocks are in flight is managed
elsewhere; the plan begins with an empty vector. -/
inductive Event
  | index (ev : BlockIndex.Event)
  | initializeNode (nodeid : NodeId)
  | finalizeNode (nodeid : NodeId)
  | updateBlockAvailability (nodeid : NodeId) (hash : Uint256)
  | findNextBlocksToDownload (nodeid : NodeId) (mapBlocksInFlight : Dict Uint256 NodeId)
      (count : BitVec 32) (nodeStaller : NodeId)

section Steps

variable (par : Params) (proc : Process)

/-- Connections are taken when there is a best block. -/
def step (s : System) : Event → Option System
  | .index ev => some { s with node := BlockIndex.step par proc s.node ev }
  | .initializeNode nodeid =>
    if s.node.chainActive = [] then some s
    else some { s with mapNodeState := s.mapNodeState.insert nodeid {} }
  | .finalizeNode nodeid => some { s with mapNodeState := s.mapNodeState.erase nodeid }
  | .updateBlockAvailability nodeid hash =>
    (s.mapNodeState.find nodeid).map fun state => { s with
      mapNodeState := s.mapNodeState.set nodeid
        (updateBlockAvailability s.node.mapBlockIndex state hash) }
  | .findNextBlocksToDownload nodeid mapBlocksInFlight count nodeStaller =>
    (s.mapNodeState.find nodeid).bind fun state =>
      (findNextBlocksToDownload s.node mapBlocksInFlight nodeid count state [] nodeStaller).map
        fun r => { s with mapNodeState := s.mapNodeState.set nodeid r.1 }

/-- The system after the events; `none` where the program would have followed a null pointer. -/
def run (pos : DiskPos) (evs : List Event) : Option System :=
  evs.foldlM (step par proc) ⟨initBlockIndex par proc pos, Dict.empty⟩

end Steps

/-! The walk. -/

section Path

variable {m : BlockMap} {best x p y : Uint256} {e eb ep : Entry} {lo mid hi : ℕ}
  {l l' : List (Uint256 × Entry)}

/-- The blocks from `best` down, above one height and up to another, the lowest first. -/
structure Path (m : BlockMap) (best : Uint256) (lo hi : ℕ) (l : List (Uint256 × Entry)) : Prop where
  mem : ∀ y ey, (y, ey) ∈ l ↔
    m.find y = some ey ∧ Ancestor m best y ∧ lo < ey.nHeight ∧ ey.nHeight ≤ hi
  ascending : l.Pairwise fun a b => a.2.nHeight < b.2.nHeight

theorem Path.nil (m : BlockMap) (best : Uint256) (lo : ℕ) : Path m best lo lo [] where
  mem y ey := iff_of_false List.not_mem_nil (by omega)
  ascending := List.Pairwise.nil

theorem Path.append (h : Path m best lo mid l) (h' : Path m best mid hi l') (hlo : lo ≤ mid)
    (hhi : mid ≤ hi) : Path m best lo hi (l ++ l') where
  mem y ey := by
    rw [List.mem_append, h.mem, h'.mem]
    constructor
    · rintro (⟨hfind, hbest, hl, hm⟩ | ⟨hfind, hbest, hm, hh⟩)
      · exact ⟨hfind, hbest, hl, by omega⟩
      · exact ⟨hfind, hbest, by omega, hh⟩
    · rintro ⟨hfind, hbest, hl, hh⟩
      rcases Nat.lt_or_ge mid ey.nHeight with hm | hm
      · exact Or.inr ⟨hfind, hbest, hm, hh⟩
      · exact Or.inl ⟨hfind, hbest, hl, hm⟩
  ascending := by
    refine List.pairwise_append.mpr ⟨h.ascending, h'.ascending, fun a ha b hb => ?_⟩
    have hlow := ((h.mem a.1 a.2).mp ha).2.2.2
    have hhigh := ((h'.mem b.1 b.2).mp hb).2.2.1
    omega

/-- Above an entry is the entry itself, and what is above its predecessor. -/
theorem ancestor_step (he : m.find x = some e) (hp : e.pprev = some p) :
    Ancestor m x y ↔ y = x ∨ Ancestor m p y := by
  constructor
  · rintro ⟨k, hk⟩
    cases k with
    | zero => exact Or.inl (Option.some.inj hk).symm
    | succ k =>
      rw [Pointers.follow_succ, parent_of_find he, hp, Option.bind_some] at hk
      exact Or.inr ⟨k, hk⟩
  · rintro (rfl | ⟨k, hk⟩)
    · exact ⟨0, rfl⟩
    · exact ⟨k + 1, by rw [Pointers.follow_succ, parent_of_find he, hp, Option.bind_some, hk]⟩

theorem fetch_eq (h : Forest m) {k : ℕ} (he : m.find x = some e) (hk : k ≤ e.nHeight) :
    ∃ l, fetch m k x = some l ∧ Path m x (e.nHeight - k) e.nHeight l := by
  induction k generalizing x e with
  | zero => exact ⟨[], rfl, Path.nil m x e.nHeight⟩
  | succ k ih =>
    rcases h.rooted x e he with ⟨-, hzero⟩ | ⟨p, ep, hp, hep, hnext⟩
    · omega
    obtain ⟨l, hl, hpath⟩ := ih hep (by omega)
    have hfetch : (if k = 0 then some [] else e.pprev.bind (fetch m k)) = some l := by
      rw [hp, Option.bind_some, hl]
      cases k with
      | zero => exact hl
      | succ k => rfl
    refine ⟨l ++ [(x, e)], ?_, ?_⟩
    · rw [fetch, he, Option.bind_some, hfetch, Option.map_some]
    · constructor
      · intro y ey
        rw [List.mem_append, List.mem_singleton, Prod.mk.injEq, hpath.mem, ancestor_step he hp]
        constructor
        · rintro (⟨hfind, hbelow, hlo, hhi⟩ | ⟨rfl, rfl⟩)
          · exact ⟨hfind, Or.inr hbelow, by omega, by omega⟩
          · exact ⟨he, Or.inl rfl, by omega, le_refl _⟩
        · rintro ⟨hfind, rfl | hbelow, hlo, hhi⟩
          · exact Or.inr ⟨rfl, Option.some.inj (hfind.symm.trans he)⟩
          · obtain ⟨ey', hfind', hle, -⟩ := (h.ancestor_iff hep).mp hbelow
            obtain rfl : ey = ey' := Option.some.inj (hfind.symm.trans hfind')
            exact Or.inl ⟨hfind, hbelow, by omega, hle⟩
      · refine List.pairwise_append.mpr ⟨hpath.ascending, List.pairwise_singleton _ _, ?_⟩
        intro a ha b hb
        rw [List.mem_singleton.mp hb]
        have hhigh := ((hpath.mem a.1 a.2).mp ha).2.2.2
        exact (by omega : a.2.nHeight < e.nHeight)

/-- Up from a block of the path, the fetched blocks continue it. -/
theorem fetch_path (h : Forest m) (heb : m.find best = some eb) {k : ℕ}
    (hhi : lo + k ≤ eb.nHeight) :
    ∃ x e l, getAncestor m best (lo + k : ℕ) = some x ∧ m.find x = some e ∧ e.nHeight = lo + k ∧
      fetch m k x = some l ∧ Path m best lo (lo + k) l := by
  obtain ⟨x, e, hfollow, he, hheight⟩ := h.follow_height heb (k := eb.nHeight - (lo + k)) (by omega)
  obtain ⟨l, hl, hpath⟩ := fetch_eq h (k := k) he (by omega)
  refine ⟨x, e, l, ?_, he, by omega, hl, ?_⟩
  · rw [h.getAncestor_eq heb (by omega), hfollow]
  · refine ⟨fun y ey => ?_, hpath.ascending⟩
    rw [hpath.mem]
    constructor
    · rintro ⟨hfind, hbelow, hlo, hhi⟩
      exact ⟨hfind, (h.ancestor_of_le heb hfollow he hfind hhi).mp hbelow, by omega, by omega⟩
    · rintro ⟨hfind, hbelow, hlo, hhi⟩
      exact ⟨hfind, (h.ancestor_of_le heb hfollow he hfind (by omega)).mpr hbelow, by omega,
        by omega⟩

end Path

section Visits

variable {mapBlocksInFlight : Dict Uint256 NodeId} {count : BitVec 32} {nWindowEnd : ℕ}
  {start : Uint256} {done l : List (Uint256 × Entry)} {w w' : Walk}

/-- The block is missing and not in flight. -/
def wanted (mapBlocksInFlight : Dict Uint256 NodeId) (pindex : Uint256 × Entry) : Bool :=
  !pindex.2.hasData && !mapBlocksInFlight.count pindex.1

/-- What has been planned when these blocks have been visited. -/
structure Visited (mapBlocksInFlight : Dict Uint256 NodeId) (count : BitVec 32) (nWindowEnd : ℕ)
    (start : Uint256) (done : List (Uint256 × Entry)) (w : Walk) : Prop where
  blocks : w.vBlocks = (done.filter (wanted mapBlocksInFlight)).map Prod.fst
  window : ∀ pindex ∈ done, wanted mapBlocksInFlight pindex = true →
    pindex.2.nHeight ≤ nWindowEnd
  length : w.vBlocks.length ≤ count.toNat
  common : w.pindexLastCommonBlock = start ∨
    ∃ e, (w.pindexLastCommonBlock, e) ∈ done ∧ e.nChainTx ≠ 0

/-- A block that is not wanted adds nothing to the plan. -/
theorem Visited.skip (h : Visited mapBlocksInFlight count nWindowEnd start done w)
    {pindex : Uint256 × Entry} (hnot : wanted mapBlocksInFlight pindex = false)
    (hblocks : w'.vBlocks = w.vBlocks)
    (hcommon : w'.pindexLastCommonBlock = w.pindexLastCommonBlock ∨
      w'.pindexLastCommonBlock = pindex.1 ∧ pindex.2.nChainTx ≠ 0) :
    Visited mapBlocksInFlight count nWindowEnd start (done ++ [pindex]) w' where
  blocks := by
    rw [hblocks, h.blocks, List.filter_append, List.filter_singleton, hnot, cond_false,
      List.append_nil]
  window x hx hwanted := by
    rcases List.mem_append.mp hx with hx | hx
    · exact h.window x hx hwanted
    · rw [List.mem_singleton.mp hx, hnot] at hwanted
      cases hwanted
  length := hblocks ▸ h.length
  common := by
    rcases hcommon with heq | ⟨heq, hne⟩
    · rw [heq]
      refine h.common.imp_right fun ⟨e, hmem, hne⟩ => ⟨e, List.mem_append_left _ hmem, hne⟩
    · refine Or.inr ⟨pindex.2, ?_, hne⟩
      rw [heq]
      exact List.mem_append_right _ (List.mem_singleton_self _)

theorem Visited.push (h : Visited mapBlocksInFlight count nWindowEnd start done w)
    {pindex : Uint256 × Entry} (hwanted : wanted mapBlocksInFlight pindex = true)
    (hwindow : pindex.2.nHeight ≤ nWindowEnd) (hroom : w.vBlocks.length < count.toNat) :
    Visited mapBlocksInFlight count nWindowEnd start (done ++ [pindex])
      { w with vBlocks := w.vBlocks ++ [pindex.1] } where
  blocks := by
    dsimp only
    rw [h.blocks, List.filter_append, List.filter_singleton, hwanted, cond_true, List.map_append]
    rfl
  window x hx hx' := by
    rcases List.mem_append.mp hx with hx | hx
    · exact h.window x hx hx'
    · rw [List.mem_singleton.mp hx]
      exact hwindow
  length := by
    rw [List.length_append, List.length_singleton]
    omega
  common := h.common.imp_right fun ⟨e, hmem, hne⟩ => ⟨e, List.mem_append_left _ hmem, hne⟩

/-- The walk goes on with the block visited and room left, or it is over, with the block or
without it. -/
theorem Visited.visit (h : Visited mapBlocksInFlight count nWindowEnd start done w)
    (nodeid : NodeId) (hroom : w.vBlocks.length < count.toNat) (pindex : Uint256 × Entry) :
    (∃ w', DownloadPlan.visit mapBlocksInFlight nodeid count nWindowEnd w pindex = .ok w' ∧
      Visited mapBlocksInFlight count nWindowEnd start (done ++ [pindex]) w' ∧
      w'.vBlocks.length < count.toNat) ∨
    ∃ w', DownloadPlan.visit mapBlocksInFlight nodeid count nWindowEnd w pindex = .error w' ∧
      (Visited mapBlocksInFlight count nWindowEnd start done w' ∨
        Visited mapBlocksInFlight count nWindowEnd start (done ++ [pindex]) w') := by
  unfold DownloadPlan.visit
  cases hvalid : pindex.2.isValid blockValidTree with
  | false => exact Or.inr ⟨w, rfl, Or.inl h⟩
  | true =>
    cases hdata : pindex.2.hasData with
    | true =>
      have hnot : wanted mapBlocksInFlight pindex = false := by rw [wanted, hdata]; rfl
      refine Or.inl ⟨_, rfl, ?_⟩
      split_ifs with hne
      · exact ⟨h.skip hnot rfl (Or.inr ⟨rfl, hne⟩), hroom⟩
      · exact ⟨h.skip hnot rfl (Or.inl rfl), hroom⟩
    | false =>
      cases hflight : mapBlocksInFlight.find pindex.1 with
      | some owner =>
        have hnot : wanted mapBlocksInFlight pindex = false := by
          rw [wanted, hdata, Dict.count, hflight]
          rfl
        refine Or.inl ⟨_, rfl, ?_⟩
        split_ifs
        · exact ⟨h.skip hnot rfl (Or.inl rfl), hroom⟩
        · exact ⟨h.skip hnot rfl (Or.inl rfl), hroom⟩
      | none =>
        have hwanted : wanted mapBlocksInFlight pindex = true := by
          rw [wanted, hdata, Dict.count, hflight]
          rfl
        dsimp only
        simp only [Bool.not_true, Bool.false_eq_true, if_false]
        split_ifs with hbeyond _ hfull
        · exact Or.inr ⟨_, rfl, Or.inl ⟨h.blocks, h.window, h.length, h.common⟩⟩
        · exact Or.inr ⟨_, rfl, Or.inl h⟩
        · exact Or.inr ⟨_, rfl, Or.inr (h.push hwanted (by omega) hroom)⟩
        · refine Or.inl ⟨_, rfl, h.push hwanted (by omega) hroom, ?_⟩
          rw [List.length_append, List.length_singleton]
          omega

theorem Visited.foldlM (h : Visited mapBlocksInFlight count nWindowEnd start done w)
    (nodeid : NodeId) (hroom : w.vBlocks.length < count.toNat) (l : List (Uint256 × Entry)) :
    (∃ w', l.foldlM (DownloadPlan.visit mapBlocksInFlight nodeid count nWindowEnd) w = .ok w' ∧
      Visited mapBlocksInFlight count nWindowEnd start (done ++ l) w' ∧
      w'.vBlocks.length < count.toNat) ∨
    ∃ w' pre, l.foldlM (DownloadPlan.visit mapBlocksInFlight nodeid count nWindowEnd) w =
        .error w' ∧ pre <+: l ∧
      Visited mapBlocksInFlight count nWindowEnd start (done ++ pre) w' := by
  induction l generalizing done w with
  | nil => exact Or.inl ⟨w, rfl, by rwa [List.append_nil], hroom⟩
  | cons pindex rest ih =>
    rw [List.foldlM_cons]
    rcases h.visit nodeid hroom pindex with ⟨w', hok, h', hroom'⟩ | ⟨w', herr, h'⟩
    · rw [hok]
      rcases ih h' hroom' with ⟨w'', hfold, h'', hroom''⟩ | ⟨w'', pre, hfold, hpre, h''⟩
      · exact Or.inl ⟨w'', hfold, by rwa [List.append_assoc] at h'', hroom''⟩
      · refine Or.inr ⟨w'', pindex :: pre, hfold, List.cons_prefix_cons.mpr ⟨rfl, hpre⟩, ?_⟩
        rwa [List.append_assoc] at h''
    · rw [herr]
      rcases h' with h' | h'
      · exact Or.inr ⟨w', [], rfl, List.nil_prefix, by rwa [List.append_nil]⟩
      · exact Or.inr ⟨w', [pindex], rfl, List.cons_prefix_cons.mpr ⟨rfl, List.nil_prefix⟩, h'⟩

end Visits

section Planned

variable {par : Params} {n : Node} {mapBlocksInFlight : Dict Uint256 NodeId}
  {count : BitVec 32} {nWindowEnd nMaxHeight lo hi : ℕ} {start best : Uint256} {e es eb : Entry}
  {done l pre : List (Uint256 × Entry)} {w : Walk}

theorem nToFetch_pos (count : BitVec 32) (w : Walk) {nHeight : ℕ} (hlt : nHeight < nMaxHeight) :
    0 < nToFetch count w nHeight nMaxHeight ∧
      nHeight + nToFetch count w nHeight nMaxHeight ≤ nMaxHeight := by
  have hleast := le_max_right (toInt32 (count.toNat - w.vBlocks.length)) 128
  unfold nToFetch
  omega

/-- The loop ends, with a first part of a path visited. -/
theorem walkLoop_eq (nodeid : NodeId) (h : Forest n.mapBlockIndex) (heb : n.find best = some eb)
    (hmax : nMaxHeight ≤ eb.nHeight) {turns : ℕ} {pindexWalk : Uint256}
    (he : n.find pindexWalk = some e) (hturns : nMaxHeight - e.nHeight < turns)
    (hlo : lo ≤ e.nHeight) (hpath : Path n.mapBlockIndex best lo e.nHeight done)
    (hvisited : Visited mapBlocksInFlight count nWindowEnd start done w)
    (hroom : w.vBlocks.length < count.toNat) :
    ∃ w' l pre hi, walkLoop n mapBlocksInFlight nodeid count best nWindowEnd nMaxHeight turns
        pindexWalk w = some w' ∧ Path n.mapBlockIndex best lo hi l ∧ pre <+: l ∧
      Visited mapBlocksInFlight count nWindowEnd start pre w' := by
  induction turns generalizing pindexWalk e done w with
  | zero => exact absurd hturns (Nat.not_lt_zero _)
  | succ turns ih =>
    rw [walkLoop, he, Option.bind_some]
    split_ifs with hlt
    · obtain ⟨hpos, hfits⟩ := nToFetch_pos count w hlt
      dsimp only
      generalize nToFetch count w e.nHeight nMaxHeight = k at hpos hfits
      have hlow : e.nHeight + k ≤ eb.nHeight := by omega
      obtain ⟨x, ex, l, hx, hex, hheight, hl, hpath'⟩ := fetch_path h heb hlow
      rw [hx, Option.bind_some, hl, Option.bind_some]
      have hlonger := hpath.append hpath' hlo (by omega)
      rcases hvisited.foldlM nodeid hroom l with
        ⟨w', hfold, hvisited', hroom'⟩ | ⟨w', pre, hfold, hpre, hvisited'⟩
      · rw [hfold]
        rw [← hheight] at hlonger
        exact ih hex (by omega) (by omega) hlonger hvisited' hroom'
      · rw [hfold]
        exact ⟨w', done ++ l, done ++ pre, e.nHeight + k, rfl, hlonger,
          (List.prefix_append_right_inj done).mpr hpre, hvisited'⟩
    · exact ⟨w, done, done, e.nHeight, rfl, hpath, List.prefix_refl _, hvisited⟩

/-- A sound plan: some of the blocks that are missing on the way from the common block to the best
one, and all of them below the last one that is planned. -/
structure Planned (m : BlockMap) (mapBlocksInFlight : Dict Uint256 NodeId) (count : BitVec 32)
    (start best : Uint256) (vBlocks : List Uint256) : Prop where
  length : vBlocks.length ≤ count.toNat
  nodup : vBlocks.Nodup
  ascending : vBlocks.Pairwise fun a b => heightOf m a < heightOf m b
  ancestors : ∀ x ∈ vBlocks, Ancestor m best x
  missing : ∀ x ∈ vBlocks, ∃ e, m.find x = some e ∧ e.hasData = false
  notInFlight : ∀ x ∈ vBlocks, mapBlocksInFlight.count x = false
  window : ∀ x ∈ vBlocks, heightOf m x ≤ heightOf m start + blockDownloadWindow
  complete : ∀ x e, m.find x = some e → Ancestor m best x → e.hasData = false →
    mapBlocksInFlight.count x = false → (∃ y ∈ vBlocks, heightOf m x < heightOf m y) →
    x ∈ vBlocks

theorem Visited.mem_vBlocks {x : Uint256}
    (h : Visited mapBlocksInFlight count nWindowEnd start pre w) :
    x ∈ w.vBlocks ↔ ∃ e, (x, e) ∈ pre ∧ wanted mapBlocksInFlight (x, e) = true := by
  rw [h.blocks, List.mem_map]
  constructor
  · rintro ⟨pindex, hmem, rfl⟩
    exact ⟨pindex.2, List.mem_filter.mp hmem⟩
  · rintro ⟨e, hmem, hwanted⟩
    exact ⟨(x, e), List.mem_filter.mpr ⟨hmem, hwanted⟩, rfl⟩

theorem wanted_iff {x : Uint256} : wanted mapBlocksInFlight (x, e) = true ↔
    e.hasData = false ∧ mapBlocksInFlight.count x = false := by
  rw [wanted, Bool.and_eq_true, Bool.not_eq_true', Bool.not_eq_true']

/-- What is visited up from a received block is a sound plan. -/
theorem Visited.planned (hkept : Kept par [] n) (heb : n.find best = some eb)
    (hes : n.find start = some es) (hreceived : es.nChainTx ≠ 0)
    (hbelow : Ancestor n.mapBlockIndex best start)
    (hpath : Path n.mapBlockIndex best es.nHeight hi l) (hpre : pre <+: l)
    (h : Visited mapBlocksInFlight count (es.nHeight + blockDownloadWindow) start pre w) :
    Planned n.mapBlockIndex mapBlocksInFlight count start best w.vBlocks := by
  have hforest := hkept.tree.forest
  have hon : ∀ {x e}, (x, e) ∈ pre → n.find x = some e ∧ Ancestor n.mapBlockIndex best x ∧
      es.nHeight < e.nHeight ∧ e.nHeight ≤ hi :=
    fun hmem => (hpath.mem _ _).mp (hpre.mem hmem)
  have hascending : w.vBlocks.Pairwise fun a b =>
      heightOf n.mapBlockIndex a < heightOf n.mapBlockIndex b := by
    rw [h.blocks, List.pairwise_map]
    refine ((hpath.ascending.sublist hpre.sublist).filter _).imp_of_mem ?_
    intro a b ha hb hlt
    have hfa := (hon (List.mem_of_mem_filter ha)).1
    have hfb := (hon (List.mem_of_mem_filter hb)).1
    rwa [heightOf_of_find hfa, heightOf_of_find hfb]
  refine ⟨h.length, hascending.imp fun hlt heq => ?_, hascending, fun x hx => ?_, fun x hx => ?_,
    fun x hx => ?_, fun x hx => ?_, fun x ex hex hbest hdata hflight hy => ?_⟩
  · rw [heq] at hlt
    exact absurd hlt (lt_irrefl _)
  · obtain ⟨ex, hmem, -⟩ := h.mem_vBlocks.mp hx
    exact (hon hmem).2.1
  · obtain ⟨ex, hmem, hwanted⟩ := h.mem_vBlocks.mp hx
    exact ⟨ex, (hon hmem).1, (wanted_iff.mp hwanted).1⟩
  · obtain ⟨ex, -, hwanted⟩ := h.mem_vBlocks.mp hx
    exact (wanted_iff.mp hwanted).2
  · obtain ⟨ex, hmem, hwanted⟩ := h.mem_vBlocks.mp hx
    rw [heightOf_of_find (hon hmem).1, heightOf_of_find hes]
    exact h.window (x, ex) hmem hwanted
  · obtain ⟨y, hy, hlt⟩ := hy
    obtain ⟨ey, hmemy, -⟩ := h.mem_vBlocks.mp hy
    obtain ⟨hey, -, -, hhigh⟩ := hon hmemy
    rw [heightOf_of_find hex, heightOf_of_find hey] at hlt
    -- below the common block nothing is missing
    have hup : es.nHeight < ex.nHeight := by
      by_contra hlow
      obtain ⟨k, hk⟩ := hbelow
      obtain ⟨ex', hex', hne⟩ := hkept.ancestor_received hes hreceived
        ((hforest.ancestor_of_le heb hk hes hex (by omega)).mpr hbest)
      obtain rfl : ex = ex' := Option.some.inj (hex.symm.trans hex')
      rw [hkept.hasData_of_nChainTx hex hne] at hdata
      cases hdata
    have hmem : (x, ex) ∈ l := (hpath.mem x ex).mpr ⟨hex, hbest, hup, by omega⟩
    refine h.mem_vBlocks.mpr ⟨ex, ?_, wanted_iff.mpr ⟨hdata, hflight⟩⟩
    obtain ⟨rest, rfl⟩ := hpre
    rcases List.mem_append.mp hmem with hmem | hmem
    · exact hmem
    · have hafter := (List.pairwise_append.mp hpath.ascending).2.2 _ hmemy _ hmem
      exact absurd hafter (by dsimp only; omega)

end Planned

section Peers

variable {par : Params} {proc : Process} {n n' : Node} {state : CNodeState} {best : Uint256}
  {eb : Entry}

/-- The pointers of a peer are to entries of the index, that to the last common block to one that
has been received with all below it. -/
structure Valid (n : Node) (state : CNodeState) : Prop where
  best : ∀ b, state.pindexBestKnownBlock = some b → ∃ e, n.find b = some e
  last : ∀ c, state.pindexLastCommonBlock = some c → ∃ e, n.find c = some e ∧ e.nChainTx ≠ 0

theorem valid_fresh (n : Node) : Valid n {} where
  best _ hb := by cases hb
  last _ hc := by cases hc

theorem Valid.grown (h : Valid n state) (hgrown : Grown n n') (hkept : Kept par [] n)
    (hkept' : Kept par [] n') : Valid n' state where
  best b hb := by
    obtain ⟨e, he⟩ := h.best b hb
    obtain ⟨e', he', -⟩ := hgrown.entries b e he
    exact ⟨e', he'⟩
  last c hc := by
    obtain ⟨e, he, hne⟩ := h.last c hc
    exact hgrown.nChainTx_ne_zero hkept hkept' he hne

theorem Valid.announced (h : Valid n state) {hash : Uint256}
    (hwork : hasWork n.mapBlockIndex hash = true) :
    Valid n (DownloadPlan.announced n.mapBlockIndex state hash) := by
  unfold DownloadPlan.announced
  split_ifs
  · refine ⟨fun b hb => ?_, h.last⟩
    cases hb
    obtain ⟨e, he, -⟩ := (Option.any_eq_true _ _).mp hwork
    exact ⟨e, he⟩
  · exact h

theorem Valid.processBlockAvailability (h : Valid n state) :
    Valid n (DownloadPlan.processBlockAvailability n.mapBlockIndex state) := by
  unfold DownloadPlan.processBlockAvailability
  split_ifs with hknown
  · have hannounced := h.announced hknown.2
    exact ⟨hannounced.1, hannounced.2⟩
  · exact h

theorem Valid.updateBlockAvailability (h : Valid n state) (hash : Uint256) :
    Valid n (DownloadPlan.updateBlockAvailability n.mapBlockIndex state hash) := by
  have hprocessed := h.processBlockAvailability
  unfold DownloadPlan.updateBlockAvailability
  dsimp only
  split_ifs with hwork
  · exact hprocessed.announced hwork
  · exact ⟨hprocessed.1, hprocessed.2⟩

theorem last_processBlockAvailability (m : BlockMap) (state : CNodeState) :
    (processBlockAvailability m state).pindexLastCommonBlock = state.pindexLastCommonBlock := by
  unfold processBlockAvailability announced
  split_ifs <;> rfl

/-- There is a last common block; it has been received, and the best block is over it. -/
theorem Valid.lastCommonBlock (h : Valid n state) (hkept : Kept par [] n)
    (hchain : n.chainActive ≠ []) (heb : n.find best = some eb) :
    ∃ start es, DownloadPlan.lastCommonBlock n state best = some start ∧ n.find start = some es ∧
      es.nChainTx ≠ 0 ∧ Ancestor n.mapBlockIndex best start := by
  have hguess : ∃ guess eg, (match state.pindexLastCommonBlock with
      | some last => some last
      | none => n.chainActive[min (heightOf n.mapBlockIndex best) (n.chainActive.length - 1)]?) =
        some guess ∧ n.find guess = some eg ∧ eg.nChainTx ≠ 0 := by
    cases hlast : state.pindexLastCommonBlock with
    | some last =>
      obtain ⟨e, he, hne⟩ := h.last last hlast
      exact ⟨last, e, rfl, he, hne⟩
    | none =>
      have hpos := List.length_pos_iff.mpr hchain
      have hbound : min (heightOf n.mapBlockIndex best) (n.chainActive.length - 1) <
          n.chainActive.length := by omega
      obtain ⟨e, he, hne⟩ := hkept.active_received (List.getElem_mem hbound)
      exact ⟨_, e, List.getElem?_eq_getElem hbound, he, hne⟩
  obtain ⟨guess, eg, hsome, heg, hne⟩ := hguess
  have hforest := hkept.tree.forest
  obtain ⟨r, hr, hmeets⟩ := hforest.lastCommonAncestor_eq heg heb
  obtain ⟨x, hxa, hxb⟩ := hforest.exists_common hkept.tree.oneRoot heg heb
  obtain ⟨start, rfl⟩ := Option.ne_none_iff_exists'.mp (hmeets.found x hxa hxb)
  obtain ⟨hleft, hright, -⟩ := (hmeets.highest start).mp rfl
  obtain ⟨es, hes, hreceived⟩ := hkept.ancestor_received heg hne hleft
  refine ⟨start, es, ?_, hes, hreceived, hright⟩
  unfold DownloadPlan.lastCommonBlock
  dsimp only
  rw [hsome, Option.bind_some, hr]
  rfl

/-- What one call gives: a sound plan, or none, and a peer whose pointers are right. -/
theorem Valid.findNextBlocksToDownload (h : Valid n state) (hkept : Kept par [] n)
    (hchain : n.chainActive ≠ []) (mapBlocksInFlight : Dict Uint256 NodeId) (nodeid : NodeId)
    (count : BitVec 32) (nodeStaller : NodeId) :
    ∃ state' vBlocks nodeStaller', findNextBlocksToDownload n mapBlocksInFlight nodeid count state
        [] nodeStaller = some (state', vBlocks, nodeStaller') ∧ Valid n state' ∧
      (vBlocks = [] ∨ ∃ start best, state'.pindexBestKnownBlock = some best ∧
        DownloadPlan.lastCommonBlock n state best = some start ∧
        Planned n.mapBlockIndex mapBlocksInFlight count start best vBlocks) := by
  unfold DownloadPlan.findNextBlocksToDownload
  have hlast := last_processBlockAvailability n.mapBlockIndex state
  have hprocessed := h.processBlockAvailability
  generalize DownloadPlan.processBlockAvailability n.mapBlockIndex state = processed
    at hlast hprocessed
  split_ifs with hcount
  · exact ⟨state, [], nodeStaller, rfl, h, Or.inl rfl⟩
  dsimp only
  cases hbest : processed.pindexBestKnownBlock with
  | none => exact ⟨processed, [], nodeStaller, rfl, hprocessed, Or.inl rfl⟩
  | some best =>
    obtain ⟨tip, htip⟩ : ∃ tip, n.tip = some tip :=
      ⟨_, List.getLast?_eq_some_getLast hchain⟩
    dsimp only
    rw [htip, Option.bind_some]
    split_ifs with hless
    · exact ⟨processed, [], nodeStaller, rfl, hprocessed, Or.inl rfl⟩
    obtain ⟨eb, heb⟩ := hprocessed.best best hbest
    obtain ⟨start, es, hstart, hes, hreceived, hbelow⟩ :=
      hprocessed.lastCommonBlock hkept hchain heb
    have hsame : DownloadPlan.lastCommonBlock n processed best =
        DownloadPlan.lastCommonBlock n state best := by
      unfold DownloadPlan.lastCommonBlock
      rw [hlast]
    rw [hstart, Option.bind_some]
    split_ifs with heq
    · refine ⟨_, [], nodeStaller, rfl,
        ⟨fun b hb => hprocessed.best b (hbest.trans hb), fun c hc => ?_⟩, Or.inl rfl⟩
      cases hc
      exact ⟨es, hes, hreceived⟩
    have hpos : ([] : List Uint256).length < count.toNat := by
      have hne : count.toNat ≠ 0 := fun hzero => hcount (BitVec.eq_of_toNat_eq hzero)
      exact Nat.pos_of_ne_zero hne
    rw [heightOf_of_find hes, heightOf_of_find heb]
    have hfirst : Visited mapBlocksInFlight count (es.nHeight + blockDownloadWindow) start []
        ⟨[], start, -1, nodeStaller⟩ :=
      ⟨rfl, fun _ hmem => absurd hmem List.not_mem_nil, Nat.zero_le _, Or.inl rfl⟩
    obtain ⟨w, l, pre, hi, hwalk, hpath, hpre, hvisited⟩ := walkLoop_eq nodeid hkept.tree.forest
      heb (min_le_left eb.nHeight (es.nHeight + blockDownloadWindow + 1)) hes
      (Nat.lt_succ_of_le (Nat.sub_le _ _)) (le_refl _) (Path.nil _ _ _) hfirst hpos
    rw [hwalk]
    refine ⟨_, w.vBlocks, w.nodeStaller, rfl,
      ⟨fun b hb => hprocessed.best b (hbest.trans hb), fun c hc => ?_⟩, Or.inr
      ⟨start, best, rfl, hsame.symm.trans hstart,
        hvisited.planned hkept heb hes hreceived hbelow hpath hpre⟩⟩
    cases hc
    rcases hvisited.common with hc | ⟨e, hmem, hne⟩
    · rw [hc]
      exact ⟨es, hes, hreceived⟩
    · exact ⟨e, ((hpath.mem _ _).mp (hpre.mem hmem)).1, hne⟩

/-- What holds of the system whatever has happened. -/
structure Sound (par : Params) (s : System) : Prop where
  kept : Kept par [] s.node
  valid : ∀ nodeid state, s.mapNodeState.find nodeid = some state → Valid s.node state
  chain : ∀ nodeid state, s.mapNodeState.find nodeid = some state → s.node.chainActive ≠ []

theorem Sound.set {s : System} (h : Sound par s) {nodeid : NodeId} {state state' : CNodeState}
    (hstate : s.mapNodeState.find nodeid = some state) (hvalid : Valid s.node state') :
    Sound par { s with mapNodeState := s.mapNodeState.set nodeid state' } where
  kept := h.kept
  valid nodeid' state₁ hfind := by
    rcases Dict.find_set_cases hfind with ⟨-, rfl⟩ | ⟨-, hfind⟩
    · exact hvalid
    · exact h.valid nodeid' state₁ hfind
  chain _ _ _ := h.chain nodeid state hstate

theorem Sound.step {s s' : System} (h : Sound par s) {ev : Event}
    (hstep : step par proc s ev = some s') : Sound par s' := by
  cases ev with
  | index ev =>
    cases hstep
    have hgrown : Grown s.node (BlockIndex.step par proc s.node ev) := Grown.step s.node ev
    exact ⟨h.kept.step ev, fun nodeid state hfind =>
      (h.valid nodeid state hfind).grown hgrown h.kept (h.kept.step ev),
      fun nodeid state hfind => hgrown.chain (h.chain nodeid state hfind)⟩
  | initializeNode nodeid =>
    unfold DownloadPlan.step at hstep
    dsimp only at hstep
    split_ifs at hstep with hnil
    · cases hstep
      exact h
    · cases hstep
      refine ⟨h.kept, fun nodeid' state hfind => ?_, fun _ _ _ => hnil⟩
      change (s.mapNodeState.insert nodeid {}).find nodeid' = some state at hfind
      rw [Dict.find_insert] at hfind
      split_ifs at hfind with heq
      · rw [← Option.some.inj hfind]
        cases hold : s.mapNodeState.find nodeid with
        | none => exact valid_fresh s.node
        | some old => exact h.valid nodeid old hold
      · exact h.valid nodeid' state hfind
  | finalizeNode nodeid =>
    cases hstep
    have hrest : ∀ {nodeid' state}, (s.mapNodeState.erase nodeid).find nodeid' = some state →
        s.mapNodeState.find nodeid' = some state := by
      intro nodeid' state hfind
      rw [Dict.find_erase] at hfind
      split_ifs at hfind
      exact hfind
    exact ⟨h.kept, fun nodeid' state hfind => h.valid nodeid' state (hrest hfind),
      fun nodeid' state hfind => h.chain nodeid' state (hrest hfind)⟩
  | updateBlockAvailability nodeid hash =>
    obtain ⟨state, hstate, rfl⟩ := Option.map_eq_some_iff.mp hstep
    exact h.set hstate ((h.valid nodeid state hstate).updateBlockAvailability hash)
  | findNextBlocksToDownload nodeid mapBlocksInFlight count nodeStaller =>
    obtain ⟨state, hstate, hstep⟩ := Option.bind_eq_some_iff.mp hstep
    obtain ⟨r, hr, rfl⟩ := Option.map_eq_some_iff.mp hstep
    obtain ⟨state', vBlocks, nodeStaller', hcall, hvalid, -⟩ :=
      (h.valid nodeid state hstate).findNextBlocksToDownload h.kept (h.chain nodeid state hstate)
        mapBlocksInFlight nodeid count nodeStaller
    rw [hcall] at hr
    cases hr
    exact h.set hstate hvalid

theorem Sound.run {s : System} {pos : DiskPos} {evs : List Event}
    (hrun : run par proc pos evs = some s) : Sound par s := by
  have hsteps : ∀ (evs : List Event) (s₀ : System), Sound par s₀ →
      evs.foldlM (DownloadPlan.step par proc) s₀ = some s → Sound par s := by
    intro evs
    induction evs with
    | nil =>
      intro s₀ h hfold
      cases hfold
      exact h
    | cons ev evs ih =>
      intro s₀ h hfold
      rw [List.foldlM_cons] at hfold
      obtain ⟨s₁, hstep, hfold⟩ := Option.bind_eq_some_iff.mp hfold
      exact ih s₁ (h.step hstep) hfold
  refine hsteps evs _ ⟨Kept.initBlockIndex par proc pos, fun _ _ hfind => ?_, fun _ _ hfind => ?_⟩
    hrun
  · cases (Dict.find_empty _).symm.trans hfind
  · cases (Dict.find_empty _).symm.trans hfind

/-- Whatever has happened, a call plans soundly for every peer, and nothing that is below the last
common block is missing. -/
theorem plan_sound {par : Params} {proc : Process} {pos : DiskPos} {evs : List Event} {s : System}
    (hrun : run par proc pos evs = some s) {nodeid : NodeId} {state : CNodeState}
    (hstate : s.mapNodeState.find nodeid = some state) (mapBlocksInFlight : Dict Uint256 NodeId)
    (count : BitVec 32) (nodeStaller : NodeId) :
    ∃ state' vBlocks nodeStaller', findNextBlocksToDownload s.node mapBlocksInFlight nodeid count
        state [] nodeStaller = some (state', vBlocks, nodeStaller') ∧
      (vBlocks = [] ∨ ∃ start best, state'.pindexBestKnownBlock = some best ∧
        lastCommonBlock s.node state best = some start ∧
        Planned s.node.mapBlockIndex mapBlocksInFlight count start best vBlocks) ∧
      ∀ last, state'.pindexLastCommonBlock = some last →
        ∀ x, Ancestor s.node.mapBlockIndex last x → ∃ e, s.node.find x = some e ∧
          e.hasData = true := by
  have hsound : Sound par s := Sound.run hrun
  obtain ⟨state', vBlocks, nodeStaller', hcall, hvalid, hplan⟩ :=
    (hsound.valid nodeid state hstate).findNextBlocksToDownload hsound.kept
      (hsound.chain nodeid state hstate) mapBlocksInFlight nodeid count nodeStaller
  refine ⟨state', vBlocks, nodeStaller', hcall, hplan, fun last hlast x hx => ?_⟩
  obtain ⟨e, he, hne⟩ := hvalid.last last hlast
  obtain ⟨ex, hex, hne'⟩ := hsound.kept.ancestor_received he hne hx
  exact ⟨ex, hex, hsound.kept.hasData_of_nChainTx hex hne'⟩

end Peers

section Sample

def sampleTx : CTransaction := ⟨1, 1, [], [], 0⟩

/-- Headers are hashed to their nonces. -/
def sampleContext : Validation.Context where
  hashQuark _ _ _ _ _ nNonce := nNonce.setWidth 256
  maxReorganizationDepth := 100
  checkpointAllows _ _ := true
  lastCheckpoint := none
  rejectMajority _ _ := false
  enforceMajority _ _ := false

def sampleParams : Params where
  Hash _ := 0
  modifierUpgradeBlock := 0
  nLastPOWBlock := 1000
  checkProofOfWork _ _ := true
  ctx := sampleContext
  genesis := { hash := 1, hashPrevBlock := 0, nTime := 1500000000, nBits := 0x1e0ffff0
               vtx := [sampleTx], nNonce := 1 }
  genesis_prev := rfl
  genesis_vtx := by decide

def sampleBlock (hash hashPrevBlock : Uint256) (nNonce : BitVec 32) : CBlock :=
  { hash := hash, hashPrevBlock := hashPrevBlock, nTime := 1500000060, nBits := 0x1e0ffff0
    vtx := [sampleTx], nNonce := nNonce }

/-- The genesis block is connected, the headers of two blocks over it are known, and a peer has
announced the upper one. -/
def sampleEvents : List Event :=
  [.index (.connectTip 1 .genesis),
    .index (.acceptBlock (sampleBlock 2 1 2) ⟨true, 0, true, true, true, none⟩),
    .index (.acceptBlock (sampleBlock 3 2 3) ⟨true, 0, true, true, true, none⟩),
    .initializeNode 7, .updateBlockAvailability 7 3]

def sampleSystem : Option System := run sampleParams ⟨0, fun _ => 0⟩ ⟨0, 8⟩ sampleEvents

theorem plan_sound_sample : ∃ s state, sampleSystem = some s ∧
    s.mapNodeState.find 7 = some state ∧
    ∃ state' vBlocks nodeStaller', findNextBlocksToDownload s.node Dict.empty 7 16 state [] (-1) =
        some (state', vBlocks, nodeStaller') ∧ vBlocks = [2, 3] ∧
      (vBlocks = [] ∨ ∃ start best, state'.pindexBestKnownBlock = some best ∧
        lastCommonBlock s.node state best = some start ∧
        Planned s.node.mapBlockIndex Dict.empty 16 start best vBlocks) ∧
      ∀ last, state'.pindexLastCommonBlock = some last →
        ∀ x, Ancestor s.node.mapBlockIndex last x → ∃ e, s.node.find x = some e ∧
          e.hasData = true := by
  have hplan : (sampleSystem.bind fun s => (s.mapNodeState.find 7).bind fun state =>
      (findNextBlocksToDownload s.node Dict.empty 7 16 state [] (-1)).map (·.2.1)) =
        some [2, 3] := by decide
  obtain ⟨s, hs, hplan⟩ := Option.bind_eq_some_iff.mp hplan
  obtain ⟨state, hstate, hplan⟩ := Option.bind_eq_some_iff.mp hplan
  obtain ⟨state', vBlocks, nodeStaller', hcall, hsound⟩ :=
    plan_sound (show run sampleParams ⟨0, fun _ => 0⟩ ⟨0, 8⟩ sampleEvents = some s from hs) hstate
      Dict.empty 16 (-1)
  rw [hcall] at hplan
  exact ⟨s, state, hs, hstate, state', vBlocks, nodeStaller', hcall, Option.some.inj hplan, hsound⟩

end Sample

end Scrypta.DownloadPlan
