import Scrypta.IndexGrowth
import Scrypta.UncleanStart

/-! What a run leaves in the database when the process ends in the middle of a flush, and what the
next start makes of it. -/

namespace Scrypta.UncleanStart

open BlockIndex
open Validation (CDiskBlockIndex)

/-- One of the writes of a flush. The coins with their best block are one write. -/
inductive Write
  | blockFileInfo (nFile : ℕ) (info : CBlockFileInfo)
  | lastBlockFile (nFile : ℕ)
  | blockIndex (hash : Uint256) (d : CDiskBlockIndex)
  | coins (bestBlock : Uint256)

def Database.write (db : Database) : Write → Database
  | .blockFileInfo nFile info =>
    { db with blockFileInfo := fun n => if n = nFile then info else db.blockFileInfo n }
  | .lastBlockFile nFile => { db with nLastBlockFile := nFile }
  | .blockIndex hash d => { db with blockTree := db.blockTree.set hash d }
  | .coins bestBlock => { db with bestBlock := bestBlock }

/-- A running process. The records of the database are those of the node; its best block is that of
the coins in memory. -/
structure Session where
  node : Node
  vinfoBlockFile : ℕ → CBlockFileInfo
  setDirtyFileInfo : List ℕ
  nLastBlockFile : ℕ
  disk : Database

def CBlockFileInfo.addBlock (info : CBlockFileInfo) (nHeight nAddSize : ℕ) : CBlockFileInfo where
  nSize := info.nSize + BitVec.ofNat 32 nAddSize
  nHeightLast :=
    if info.nHeightLast.toNat < nHeight then BitVec.ofNat 32 nHeight else info.nHeightLast

namespace Session

/-- The part of `FindBlockPos` that is left when the position is known. -/
def findBlockPos (s : Session) (pos : DiskPos) (nHeight nAddSize : ℕ) : Session :=
  { s with
    nLastBlockFile := pos.nFile
    vinfoBlockFile := fun nFile =>
      if nFile = pos.nFile then (s.vinfoBlockFile nFile).addBlock nHeight nAddSize
      else s.vinfoBlockFile nFile
    setDirtyFileInfo :=
      if pos.nFile ∈ s.setDirtyFileInfo then s.setDirtyFileInfo
      else pos.nFile :: s.setDirtyFileInfo }

def database (s : Session) : Database := { s.disk with blockTree := s.node.blockTree }

section Machine

variable (par : Params) (proc : Process)

def indexWrites (n : Node) : List Write :=
  n.setDirtyBlockIndex.filterMap fun hash => (n.find hash).map fun e =>
    .blockIndex (e.disk.getBlockHash par.ctx) e.disk.stored

/-- The writes of `FlushStateToDisk` in their order. -/
def flushWrites (s : Session) : List Write :=
  s.setDirtyFileInfo.map (fun nFile => .blockFileInfo nFile (s.vinfoBlockFile nFile)) ++
    (if s.setDirtyFileInfo.isEmpty then [] else [.lastBlockFile s.nLastBlockFile]) ++
      indexWrites par s.node ++ [.coins s.node.bestBlock]

/-- The database after the process ended in a flush, with the first `k` writes done. -/
def crash (s : Session) (k : ℕ) : Database :=
  ((flushWrites par s).take k).foldl Database.write s.database

def flushStateToDisk (s : Session) : Session :=
  { s with
    node := BlockIndex.flushStateToDisk par s.node
    setDirtyFileInfo := []
    disk := (flushWrites par s).foldl Database.write s.database }

/-- The data of a block is stored where it was not there before. -/
def acceptBlock (s : Session) (block : CBlock) (o : Checks) : Session :=
  let n := BlockIndex.acceptBlock par proc s.node block o
  let hash := hashOf par block
  match o.position with
  | none => { s with node := n }
  | some pos =>
    if (n.find hash).any Entry.hasData && !(s.node.find hash).any Entry.hasData then
      ({ s with node := n }).findBlockPos pos (heightOf n.mapBlockIndex hash)
        (block.getSerializeSize + 8)
    else { s with node := n }

def step (s : Session) : Event → Session
  | .acceptBlock block o => s.acceptBlock par proc block o
  | .flushStateToDisk => s.flushStateToDisk par
  | ev => { s with node := BlockIndex.step par proc s.node ev }

/-- A new database: the genesis block is stored, connected and flushed. -/
def init (pos : DiskPos) : Session :=
  let s : Session :=
    { node := initBlockIndex par proc pos
      vinfoBlockFile := fun _ => {}
      setDirtyFileInfo := []
      nLastBlockFile := 0
      disk := ⟨Dict.empty, 0, fun _ => {}, some false, 0⟩ }
  Runs.run (step par proc) (s.findBlockPos pos 0 (par.genesis.getSerializeSize + 8))
    [.connectTip (hashOf par par.genesis) .genesis, .flushStateToDisk]

end Machine

end Session

/-! Whatever a process is doing when it ends, the best block of the coins database has a record. -/

section Records

variable {par : Params} {proc : Process} {n n' : Node} {t : Dict Uint256 CDiskBlockIndex}

def putRecords (par : Params) (t : Dict Uint256 CDiskBlockIndex) (ds : List CDiskBlockIndex) :
    Dict Uint256 CDiskBlockIndex :=
  ds.foldl (fun t d => t.set (d.getBlockHash par.ctx) d) t

/-- The records of the second node are those of the first with some written over or added. -/
def Written (par : Params) (n n' : Node) : Prop :=
  ∃ ds, n'.blockTree = putRecords par n.blockTree ds

theorem Written.of_eq (h : n'.blockTree = n.blockTree) : Written par n n' := ⟨[], h⟩

theorem Written.trans {n'' : Node} (h : Written par n n') (h' : Written par n' n'') :
    Written par n n'' := by
  obtain ⟨ds, hds⟩ := h
  obtain ⟨ds', hds'⟩ := h'
  refine ⟨ds ++ ds', ?_⟩
  rw [hds', hds, putRecords, putRecords, putRecords, List.foldl_append]

theorem Written.writeBlockIndex (n : Node) (hash : Uint256) :
    Written par n (writeBlockIndex par n hash) := by
  unfold BlockIndex.writeBlockIndex
  split
  · exact .of_eq rfl
  · rename_i e he
    exact ⟨[e.disk.stored], rfl⟩

theorem blockTree_insertStake (n : Node) (e : Entry) :
    (n.insertStake e).blockTree = n.blockTree := by
  unfold Node.insertStake
  split_ifs <;> rfl

theorem blockTree_linkBlock (n : Node) (hash : Uint256) :
    (linkBlock proc n hash).blockTree = n.blockTree := by
  unfold linkBlock
  dsimp only
  split
  · rfl
  · split_ifs <;> rfl

theorem blockTree_linkQueue (k : ℕ) (queue : List Uint256) (n : Node) :
    (linkQueue proc k queue n).blockTree = n.blockTree := by
  induction k generalizing queue n with
  | zero => rfl
  | succ k ih =>
    cases queue with
    | nil => rfl
    | cons hash queue =>
      rw [linkQueue, ih]
      exact blockTree_linkBlock n hash

theorem blockTree_receivedBlockTransactions (n : Node) (block : CBlock) (hash : Uint256)
    (pos : DiskPos) :
    (receivedBlockTransactions proc n block hash pos).blockTree = n.blockTree := by
  unfold receivedBlockTransactions
  dsimp only
  split
  · rw [blockTree_linkQueue]
    rfl
  · split_ifs
    · rw [blockTree_linkQueue]
      rfl
    · rfl
    · rfl

theorem blockTree_storeBlock (n : Node) (block : CBlock) (hash : Uint256) (o : Checks) :
    (storeBlock proc n block hash o).blockTree = n.blockTree := by
  unfold storeBlock
  split_ifs
  · rfl
  · rfl
  · rfl
  · split
    · rfl
    · exact blockTree_receivedBlockTransactions n block hash _

theorem blockTree_acceptBlock (n : Node) (block : CBlock) (o : Checks) :
    (acceptBlock par proc n block o).blockTree = n.blockTree := by
  unfold acceptBlock
  dsimp only
  split
  · rfl
  · split
    · split
      · rfl
      · exact blockTree_storeBlock n block _ o
    · split
      · rw [blockTree_storeBlock, addToBlockIndex]
        exact blockTree_insertStake _ _
      · rfl

theorem blockTree_findMostWorkChain (n : Node) :
    (findMostWorkChain proc n).blockTree = n.blockTree := by
  have hloop : ∀ (k : ℕ) (n : Node), (findMostWorkLoop proc k n).blockTree = n.blockTree := by
    intro k
    induction k with
    | zero => exact fun n => rfl
    | succ k ih =>
      intro n
      rw [findMostWorkLoop]
      split
      · rfl
      · split
        · rfl
        · rw [ih]
          rfl
  exact hloop _ n

theorem Written.writeSums (n : Node) (hash : Uint256) (minted : CAmount) :
    Written par n (writeSums par n hash minted) :=
  Written.writeBlockIndex (n.modify hash (·.summed n.mapBlockIndex minted)) hash

theorem blockTree_raiseScripts (n : Node) (hash : Uint256) (nUndoPos : ℕ) :
    (raiseScripts n hash nUndoPos).blockTree = n.blockTree := by
  unfold raiseScripts
  split_ifs <;> rfl

theorem Written.connectTip (par : Params) (proc : Process) (n : Node) (hash : Uint256)
    (c : Connection) :
    Written par n (connectTip par proc n hash c) := by
  unfold BlockIndex.connectTip
  split_ifs
  · exact .of_eq rfl
  · cases c with
    | refused minted blames =>
      have hsums : Written par n (minted.elim n (BlockIndex.writeSums par n hash)) := by
        cases minted with
        | none => exact .of_eq rfl
        | some minted => exact .writeSums n hash minted
      dsimp only
      split_ifs
      · exact hsums.trans (.of_eq rfl)
      · exact hsums
    | connected minted nUndoPos =>
      exact (Written.writeSums n hash minted).trans
        (.of_eq (blockTree_raiseScripts (BlockIndex.writeSums par n hash minted) hash nUndoPos))
    | genesis => exact .of_eq rfl

theorem Written.flushStateToDisk (par : Params) (n : Node) :
    Written par n (flushStateToDisk par n) := by
  have hfold : ∀ (l : List Uint256) (n : Node),
      Written par n (l.foldl (BlockIndex.writeBlockIndex par) n) := by
    intro l
    induction l with
    | nil => exact fun n => .of_eq rfl
    | cons hash l ih => exact fun n => (Written.writeBlockIndex n hash).trans (ih _)
  exact hfold n.setDirtyBlockIndex n

theorem Written.step (par : Params) (proc : Process) (n : Node) (ev : Event) :
    Written par n (step par proc n ev) := by
  cases ev with
  | acceptBlock block o => exact .of_eq (blockTree_acceptBlock n block o)
  | findMostWorkChain => exact .of_eq (blockTree_findMostWorkChain n)
  | connectTip hash c => exact .connectTip par proc n hash c
  | disconnectTip =>
    refine .of_eq ?_
    change (disconnectTip n).blockTree = n.blockTree
    unfold disconnectTip
    split <;> rfl
  | flushStateToDisk => exact .flushStateToDisk par n

/-- Every record is filed under its hash. -/
def Filed (par : Params) (t : Dict Uint256 CDiskBlockIndex) : Prop :=
  ∀ hash d, t.find hash = some d → d.getBlockHash par.ctx = hash

theorem Filed.put (h : Filed par t) (ds : List CDiskBlockIndex) :
    Filed par (putRecords par t ds) := by
  induction ds generalizing t with
  | nil => exact h
  | cons d ds ih =>
    refine ih fun hash d' hd' => ?_
    rcases Dict.find_set_cases hd' with ⟨rfl, rfl⟩ | ⟨-, hold⟩
    · rfl
    · exact h hash d' hold

theorem isSome_putRecords {hash : Uint256} (h : (t.find hash).isSome) (ds : List CDiskBlockIndex) :
    ((putRecords par t ds).find hash).isSome := by
  induction ds generalizing t with
  | nil => exact h
  | cons d ds ih =>
    refine ih ?_
    rw [Dict.find_set]
    split_ifs
    · rfl
    · exact h

theorem isSome_insertBlockIndex {m : BlockMap} {x : Uint256} (hash : Uint256)
    (h : (m.find x).isSome) : ((insertBlockIndex m hash).1.find x).isSome := by
  rw [insertBlockIndex]
  split
  · exact h
  · rw [Dict.find_insert]
    split
    · rfl
    · exact h

theorem isSome_insertBlockIndex_self {m : BlockMap} {hash : Uint256}
    (h : (insertBlockIndex m hash).2 ≠ none) :
    ((insertBlockIndex m hash).1.find hash).isSome := by
  rw [insertBlockIndex] at h ⊢
  split
  · rename_i hzero
    rw [if_pos hzero] at h
    exact absurd rfl h
  · rw [Dict.find_insert, if_pos rfl]
    rfl

theorem isSome_modify {m : BlockMap} {x : Uint256} (hash : Uint256) (f : Entry → Entry)
    (h : (m.find x).isSome) : ((m.modify hash f).find x).isSome := by
  rw [Dict.find_modify]
  split
  · rename_i hx
    rw [Option.isSome_map, ← hx]
    exact h
  · exact h

/-- A record that is read leaves its entry, and all that were there. -/
theorem isSome_loadRecord {d : CDiskBlockIndex} (h : loadRecord par n d = some n') :
    (n'.find (d.getBlockHash par.ctx)).isSome ∧ ∀ x, (n.find x).isSome → (n'.find x).isSome := by
  unfold loadRecord at h
  dsimp only at h
  split at h
  · cases h
  · rename_i hnew
    split at h
    · cases h
    · cases h
      simp only [find_insertStake]
      constructor
      · exact isSome_modify _ _ (isSome_insertBlockIndex _
          (isSome_insertBlockIndex _ (isSome_insertBlockIndex_self hnew)))
      · intro x hx
        exact isSome_modify _ _ (isSome_insertBlockIndex _
          (isSome_insertBlockIndex _ (isSome_insertBlockIndex _ hx)))

/-- With every record its entry is there. -/
theorem isSome_index {db : Database} (hfiled : Filed par db.blockTree)
    (hloads : (loadBlockIndexGuts par db.blockTree).isSome) {hash : Uint256}
    (h : (db.blockTree.find hash).isSome) : ((index par db).find hash).isSome := by
  have hfold : ∀ (ds : List CDiskBlockIndex) (n n' : Node), ds.foldlM (loadRecord par) n = some n' →
      (∀ d ∈ ds, (n'.find (d.getBlockHash par.ctx)).isSome) ∧
        ∀ x, (n.find x).isSome → (n'.find x).isSome := by
    intro ds
    induction ds with
    | nil =>
      intro n n' hn
      cases hn
      exact ⟨fun d hd => absurd hd List.not_mem_nil, fun x hx => hx⟩
    | cons d ds ih =>
      intro n n' hn
      rw [List.foldlM_cons] at hn
      obtain ⟨n₁, hn₁, hrest⟩ := Option.bind_eq_some_iff.1 hn
      obtain ⟨hfound, hkeep⟩ := isSome_loadRecord hn₁
      obtain ⟨hfound', hkeep'⟩ := ih n₁ n' hrest
      refine ⟨fun d' hd' => ?_, fun x hx => hkeep' x (hkeep x hx)⟩
      rcases List.mem_cons.1 hd' with rfl | hmem
      · exact hkeep' _ hfound
      · exact hfound' d' hmem
  obtain ⟨n, hn⟩ := Option.isSome_iff_exists.1 hloads
  obtain ⟨d, hd⟩ := Option.isSome_iff_exists.1 h
  have hmem : d ∈ db.blockTree.toList.map Prod.snd :=
    List.mem_map.2 ⟨(hash, d), Dict.mem_toList.2 hd, rfl⟩
  have hfound := (hfold _ {} n hn).1 d hmem
  rw [hfiled hash d hd] at hfound
  rw [index, hn, Option.elim_some]
  exact hfound

end Records

section Sessions

variable {par : Params} {proc : Process} {s : Session} {n : Node} {db : Database}
  {ws : List Write}

/-- The write leaves the best block as it is, and files a record under its hash. -/
def Write.Plain (par : Params) : Write → Prop
  | .blockIndex hash d => d.getBlockHash par.ctx = hash
  | .coins _ => False
  | _ => True

theorem bestBlock_foldl_write (h : ∀ w ∈ ws, w.Plain par) :
    (ws.foldl Database.write db).bestBlock = db.bestBlock := by
  induction ws generalizing db with
  | nil => rfl
  | cons w ws ih =>
    rw [List.foldl_cons, ih fun w' hw' => h w' (List.mem_cons_of_mem w hw')]
    cases w with
    | coins bestBlock => exact (h _ List.mem_cons_self).elim
    | blockFileInfo nFile info => rfl
    | lastBlockFile nFile => rfl
    | blockIndex hash d => rfl

theorem blockTree_foldl_write (h : ∀ w ∈ ws, w.Plain par) (db : Database) :
    ∃ ds, (ws.foldl Database.write db).blockTree = putRecords par db.blockTree ds := by
  induction ws generalizing db with
  | nil => exact ⟨[], rfl⟩
  | cons w ws ih =>
    obtain ⟨ds, hds⟩ := ih (fun w' hw' => h w' (List.mem_cons_of_mem w hw')) (db.write w)
    cases w with
    | coins bestBlock => exact (h _ List.mem_cons_self).elim
    | blockFileInfo nFile info => exact ⟨ds, hds⟩
    | lastBlockFile nFile => exact ⟨ds, hds⟩
    | blockIndex hash d =>
      refine ⟨d :: ds, hds.trans ?_⟩
      have hhash : d.getBlockHash par.ctx = hash := h _ List.mem_cons_self
      rw [putRecords, putRecords, List.foldl_cons, hhash]
      rfl

/-- The writes of a flush before the last one. -/
def Session.earlyWrites (par : Params) (s : Session) : List Write :=
  s.setDirtyFileInfo.map (fun nFile => .blockFileInfo nFile (s.vinfoBlockFile nFile)) ++
    (if s.setDirtyFileInfo.isEmpty then [] else [.lastBlockFile s.nLastBlockFile]) ++
      Session.indexWrites par s.node

theorem plain_of_mem_earlyWrites {w : Write} (h : w ∈ s.earlyWrites par) : w.Plain par := by
  rw [Session.earlyWrites, List.mem_append, List.mem_append] at h
  rcases h with (hinfo | hlast) | hindex
  · obtain ⟨nFile, -, rfl⟩ := List.mem_map.1 hinfo
    trivial
  · split at hlast
    · cases hlast
    · rw [List.mem_singleton.1 hlast]
      trivial
  · obtain ⟨hash, -, hw⟩ := List.mem_filterMap.1 hindex
    obtain ⟨e, -, rfl⟩ := Option.map_eq_some_iff.1 hw
    rfl

theorem writeBlockIndex_fields (par : Params) (n : Node) (hash : Uint256) :
    (writeBlockIndex par n hash).mapBlockIndex = n.mapBlockIndex ∧
      (writeBlockIndex par n hash).bestBlock = n.bestBlock := by
  unfold writeBlockIndex
  split <;> exact ⟨rfl, rfl⟩

theorem foldl_writeBlockIndex_fields (par : Params) (l : List Uint256) (n : Node) :
    (l.foldl (writeBlockIndex par) n).mapBlockIndex = n.mapBlockIndex ∧
      (l.foldl (writeBlockIndex par) n).bestBlock = n.bestBlock := by
  induction l generalizing n with
  | nil => exact ⟨rfl, rfl⟩
  | cons hash l ih =>
    obtain ⟨hmap, hbest⟩ := writeBlockIndex_fields par n hash
    exact ⟨(ih _).1.trans hmap, (ih _).2.trans hbest⟩

/-- The writes of the entries leave the records of `FlushStateToDisk`. -/
theorem blockTree_indexWrites (par : Params) (n : Node) (db : Database)
    (hdb : db.blockTree = n.blockTree) :
    ((Session.indexWrites par n).foldl Database.write db).blockTree =
      (flushStateToDisk par n).blockTree := by
  have hfold : ∀ (l : List Uint256) (n' : Node) (db : Database),
      n'.mapBlockIndex = n.mapBlockIndex → db.blockTree = n'.blockTree →
      ((l.filterMap fun hash => (n.find hash).map fun e =>
        Write.blockIndex (e.disk.getBlockHash par.ctx) e.disk.stored).foldl Database.write
          db).blockTree = (l.foldl (writeBlockIndex par) n').blockTree := by
    intro l
    induction l with
    | nil => exact fun n' db _ hdb => hdb
    | cons hash l ih =>
      intro n' db hmap hdb
      have hfind : n'.find hash = n.find hash := congrArg (Dict.find · hash) hmap
      rw [List.foldl_cons]
      cases he : n.find hash with
      | none =>
        rw [List.filterMap_cons_none (by rw [he]; rfl)]
        refine ih _ db ((writeBlockIndex_fields par n' hash).1.trans hmap) (hdb.trans ?_)
        rw [writeBlockIndex, hfind, he]
      | some e =>
        rw [List.filterMap_cons_some (by rw [he]; rfl), List.foldl_cons]
        refine ih _ _ ((writeBlockIndex_fields par n' hash).1.trans hmap) ?_
        rw [writeBlockIndex, hfind, he, Database.write, hdb]
  exact hfold n.setDirtyBlockIndex n db rfl hdb

/-- The index keeps its rules, and there is an active chain. -/
structure Session.Ready (par : Params) (s : Session) : Prop where
  kept : Kept par [] s.node
  recorded : Recorded s.node
  filed : Filed par s.node.blockTree
  chain : s.node.chainActive ≠ []

/-- The best block on the disk has a record. -/
structure Session.Sane (par : Params) (s : Session) : Prop extends s.Ready par where
  best : (s.node.blockTree.find s.disk.bestBlock).isSome

theorem node_step (s : Session) (ev : Event) :
    (s.step par proc ev).node = BlockIndex.step par proc s.node ev := by
  cases ev with
  | acceptBlock block o =>
    change (s.acceptBlock par proc block o).node = _
    unfold Session.acceptBlock
    dsimp only
    split
    · rfl
    · split <;> rfl
  | findMostWorkChain => rfl
  | connectTip hash c => rfl
  | disconnectTip => rfl
  | flushStateToDisk => rfl

theorem Session.Ready.find_bestBlock (h : s.Ready par) : (s.node.find s.node.bestBlock).isSome := by
  rcases h.kept.active with ⟨hnil, -⟩ | ⟨hfind, -⟩
  · exact absurd hnil h.chain
  · exact hfind

theorem flushWrites_eq (par : Params) (s : Session) :
    s.flushWrites par = s.earlyWrites par ++ [.coins s.node.bestBlock] := rfl

theorem blockTree_foldl_of_ne (h : ∀ w ∈ ws, ∀ hash d, w ≠ .blockIndex hash d) (db : Database) :
    (ws.foldl Database.write db).blockTree = db.blockTree := by
  induction ws generalizing db with
  | nil => rfl
  | cons w ws ih =>
    rw [List.foldl_cons, ih fun w' hw' => h w' (List.mem_cons_of_mem w hw')]
    cases w with
    | blockIndex hash d => exact absurd rfl (h _ List.mem_cons_self hash d)
    | blockFileInfo nFile info => rfl
    | lastBlockFile nFile => rfl
    | coins bestBlock => rfl

theorem blockTree_earlyWrites (par : Params) (s : Session) :
    ((s.earlyWrites par).foldl Database.write s.database).blockTree =
      (BlockIndex.flushStateToDisk par s.node).blockTree := by
  rw [Session.earlyWrites, List.foldl_append]
  refine blockTree_indexWrites par s.node _ (blockTree_foldl_of_ne (fun w hw hash d heq => ?_) _)
  rcases List.mem_append.1 hw with hinfo | hlast
  · obtain ⟨nFile, -, rfl⟩ := List.mem_map.1 hinfo
    cases heq
  · split at hlast
    · cases hlast
    · rw [List.mem_singleton.1 hlast] at heq
      cases heq

theorem Session.Ready.record_bestBlock (h : s.Ready par) :
    ((BlockIndex.flushStateToDisk par s.node).blockTree.find s.node.bestBlock).isSome := by
  have hsaved := h.recorded.flushStateToDisk h.kept
  have hfields := foldl_writeBlockIndex_fields par s.node.setDirtyBlockIndex s.node
  obtain ⟨e, he⟩ := Option.isSome_iff_exists.1 h.find_bestBlock
  have he' : (BlockIndex.flushStateToDisk par s.node).find s.node.bestBlock = some e :=
    (congrArg (Dict.find · s.node.bestBlock) hfields.1).trans he
  obtain ⟨status, hrecord⟩ := hsaved.record_of_find he'
  rw [hrecord]
  rfl

/-- A flush that comes to its end. -/
theorem Session.Ready.flushed (h : s.Ready par) :
    ((s.flushWrites par).foldl Database.write s.database).blockTree =
      (BlockIndex.flushStateToDisk par s.node).blockTree ∧
    ((s.flushWrites par).foldl Database.write s.database).bestBlock = s.node.bestBlock ∧
    ((BlockIndex.flushStateToDisk par s.node).blockTree.find s.node.bestBlock).isSome := by
  rw [flushWrites_eq, List.foldl_append]
  exact ⟨blockTree_earlyWrites par s, rfl, h.record_bestBlock⟩

theorem Session.Ready.step (h : s.Ready par) (proc : Process) (ev : Event) :
    (s.step par proc ev).Ready par := by
  obtain ⟨ds, hds⟩ := Written.step par proc s.node ev
  have hfiled : Filed par (BlockIndex.step par proc s.node ev).blockTree := hds ▸ h.filed.put ds
  have hchain := (@Grown.step par proc s.node ev).chain h.chain
  constructor
  · rw [node_step]
    exact h.kept.step ev
  · rw [node_step]
    exact h.recorded.step h.kept ev
  · rw [node_step]
    exact hfiled
  · rw [node_step]
    exact hchain

theorem Session.Ready.flushStateToDisk (h : s.Ready par) (proc : Process) :
    (s.step par proc .flushStateToDisk).Sane par := by
  obtain ⟨-, hlast, hfound⟩ := h.flushed
  refine ⟨h.step proc .flushStateToDisk, ?_⟩
  change ((BlockIndex.flushStateToDisk par s.node).blockTree.find
    ((s.flushWrites par).foldl Database.write s.database).bestBlock).isSome
  rw [hlast]
  exact hfound

/-- Only a flush writes the best block. -/
theorem disk_acceptBlock (s : Session) (block : CBlock) (o : Checks) :
    (s.step par proc (.acceptBlock block o)).disk = s.disk := by
  change (s.acceptBlock par proc block o).disk = _
  unfold Session.acceptBlock
  dsimp only
  split
  · rfl
  · split <;> rfl

theorem Session.Sane.step (h : s.Sane par) (proc : Process) (ev : Event) :
    (s.step par proc ev).Sane par := by
  have hready := h.toReady.step proc ev
  obtain ⟨ds, hds⟩ := Written.step par proc s.node ev
  have hbest : ((BlockIndex.step par proc s.node ev).blockTree.find s.disk.bestBlock).isSome :=
    hds ▸ isSome_putRecords h.best ds
  rw [← node_step] at hbest
  cases ev with
  | acceptBlock block o => exact ⟨hready, (disk_acceptBlock s block o).symm ▸ hbest⟩
  | findMostWorkChain => exact ⟨hready, hbest⟩
  | connectTip hash c => exact ⟨hready, hbest⟩
  | disconnectTip => exact ⟨hready, hbest⟩
  | flushStateToDisk => exact h.toReady.flushStateToDisk proc

theorem Session.Sane.run (h : s.Sane par) (evs : List Event) :
    (Runs.run (Session.step par proc) s evs).Sane par :=
  Runs.run_preserves (fun _ ev hs => hs.step proc ev) h evs

/-- A process can end at any write of a flush: the best block on the disk has its record. -/
theorem Session.Sane.crash (h : s.Sane par) (k : ℕ) :
    Filed par (s.crash par k).blockTree ∧
      ((s.crash par k).blockTree.find (s.crash par k).bestBlock).isSome := by
  rw [Session.crash, flushWrites_eq, List.take_append]
  by_cases hk : k ≤ (s.earlyWrites par).length
  · have hplain : ∀ w ∈ (s.earlyWrites par).take k, w.Plain par := fun w hw =>
      plain_of_mem_earlyWrites (List.mem_of_mem_take hw)
    obtain ⟨ds, hds⟩ := blockTree_foldl_write hplain s.database
    rw [Nat.sub_eq_zero_of_le hk, List.take_zero, List.append_nil, hds,
      bestBlock_foldl_write hplain]
    exact ⟨h.filed.put ds, isSome_putRecords h.best ds⟩
  · obtain ⟨htree, hbest, hfound⟩ := h.flushed
    obtain ⟨ds, hds⟩ := Written.flushStateToDisk par s.node
    rw [List.take_of_length_le (by omega), List.take_of_length_le (by
      rw [List.length_singleton]
      omega), ← flushWrites_eq, htree, hbest]
    exact ⟨hds ▸ h.filed.put ds, hfound⟩

theorem linkBlock_of_tip (h : n.tip = none) (hash : Uint256) :
    linkBlock proc n hash = ({ n.modify hash (·.linked n.mapBlockIndex n.nBlockSequenceId) with
      nBlockSequenceId := n.nBlockSequenceId + 1 } : Node).insertCandidate hash := by
  have htip : ({ n.modify hash (·.linked n.mapBlockIndex n.nBlockSequenceId) with
      nBlockSequenceId := n.nBlockSequenceId + 1 } : Node).tip = none := h
  rw [linkBlock]
  dsimp only
  rw [htip]

/-- The genesis block can be connected to an empty chain. -/
theorem connectable_genesis (par : Params) (proc : Process) (pos : DiskPos) :
    connectable (initBlockIndex par proc pos) (hashOf par par.genesis) = true := by
  have hfresh := Entry.fresh_newEntry par proc Dict.empty par.genesis 0
  obtain ⟨n, hn⟩ : ∃ n, n = ((addToBlockIndex par proc {} par.genesis 0).modify
      (hashOf par par.genesis) (·.received par.genesis pos)).insertDirty
        (hashOf par par.genesis) := ⟨_, rfl⟩
  obtain ⟨e, he⟩ : ∃ e, e = (newEntry par proc Dict.empty par.genesis 0).received par.genesis pos :=
    ⟨_, rfl⟩
  have hfind : n.find (hashOf par par.genesis) = some e := by
    rw [hn, he]
    change (Node.modify _ _ _).find _ = _
    rw [Node.find_modify, if_pos rfl, find_addToBlockIndex]
    rfl
  have hpprev : e.pprev = none := by
    have hfixed := Entry.pprev_of_fixed (Entry.fixed_received
      (e := newEntry par proc Dict.empty par.genesis 0) par.genesis pos)
    rw [he, hfixed, newEntry, Dict.find_empty]
    dsimp only
    rw [Entry.raiseValidity_of_zero rfl (by decide)]
    rfl
  have hunlinked : n.mapBlocksUnlinked = [] ∧ n.chainActive = [] := by
    rw [hn, addToBlockIndex, Node.insertStake]
    split_ifs <;> exact ⟨rfl, rfl⟩
  have hinit : initBlockIndex par proc pos =
      linkQueue proc (n.mapBlocksUnlinked.length + 1) [hashOf par par.genesis] n := by
    have hfind' : n.mapBlockIndex.find (hashOf par par.genesis) = some e := hfind
    rw [initBlockIndex, receivedBlockTransactions, ← hn, parent, hfind',
      Option.bind_some, hpprev]
    rfl
  have htip : n.tip = none := by
    rw [Node.tip, hunlinked.2]
    rfl
  have hfailed : e.failed = false := by
    rw [he, Entry.failed_received]
    exact hfresh.failed
  rw [hinit, hunlinked.1, connectable_iff]
  refine ⟨e.linked n.mapBlockIndex n.nBlockSequenceId, ?_, ?_, ?_, hfailed⟩
  · change (linkBlock proc n (hashOf par par.genesis)).find _ = _
    rw [linkBlock_of_tip htip]
    change (Node.modify _ _ _).find _ = _
    rw [Node.find_modify, if_pos rfl, hfind]
    rfl
  · change e.pprev = (linkBlock proc n (hashOf par par.genesis)).tip
    rw [linkBlock_of_tip htip, hpprev]
    exact htip.symm
  · rw [he]
    exact Entry.hasData_received par.genesis pos

theorem line_ne_nil (m : BlockMap) (hash : Uint256) : lineOf m hash ≠ [] := by
  rw [lineOf]
  cases (m.find hash).elim 0 (·.nHeight) with
  | zero => exact List.cons_ne_nil _ _
  | succ k =>
    rw [line]
    split <;> exact List.cons_ne_nil _ _

/-- A new database is in order. -/
theorem Session.sane_init (par : Params) (proc : Process) (pos : DiskPos) :
    (Session.init par proc pos).Sane par := by
  refine Session.Ready.flushStateToDisk ?_ proc
  obtain ⟨ds, hds⟩ := Written.connectTip par proc (initBlockIndex par proc pos)
    (hashOf par par.genesis) .genesis
  have hempty : (initBlockIndex par proc pos).blockTree = Dict.empty := by
    rw [initBlockIndex, blockTree_receivedBlockTransactions, addToBlockIndex]
    exact blockTree_insertStake _ _
  constructor
  · exact Kept.run par proc pos [.connectTip (hashOf par par.genesis) .genesis]
  · exact Recorded.run par proc pos [.connectTip (hashOf par par.genesis) .genesis]
  · change Filed par (connectTip par proc (initBlockIndex par proc pos)
      (hashOf par par.genesis) .genesis).blockTree
    rw [hds, hempty]
    refine Filed.put (fun hash d hd => ?_) ds
    rw [Dict.find_empty] at hd
    cases hd
  · change (connectTip par proc (initBlockIndex par proc pos) (hashOf par par.genesis)
      .genesis).chainActive ≠ []
    rw [connectTip, connectable_genesis, if_neg (by decide)]
    exact mt List.reverse_eq_nil_iff.1 (line_ne_nil _ _)

/-- After every run, wherever in a flush it ends, the best block of the coins is in the index that
the next process reads. -/
theorem best_known_after_run (par : Params) (proc : Process) (pos : DiskPos) (evs : List Event)
    (k : ℕ) {db : Database} (hdb : db = (Runs.run (Session.step par proc)
      (Session.init par proc pos) evs).crash par k)
    (hloads : (loadBlockIndexGuts par db.blockTree).isSome) :
    ((index par db).find db.bestBlock).isSome := by
  obtain ⟨hfiled, hbest⟩ := ((Session.sane_init par proc pos).run evs).crash k
  rw [← hdb] at hfiled hbest
  exact isSome_index hfiled hloads hbest

end Sessions

/-- The start after any content of the database is sound exactly where it recovers nothing, or all
is in order. -/
theorem start_sound_iff (par : Params) (mem : Memory) (files : Files) (args : Args)
    (db : Database) :
    (start par mem files args db).Sound (index par db) db.bestBlock ↔
      (Recovers par files args db → Orderly mem db (index par db)) := by
  rw [start]
  cases hguts : loadBlockIndexGuts par db.blockTree with
  | none =>
    refine iff_of_true trivial fun h => ?_
    have hloads := h.loads
    rw [hguts] at hloads
    cases hloads
  | some n =>
    have hindex : index par db = n.mapBlockIndex := by
      rw [index, hguts, Option.elim_some]
    have hsame := sameEntries_recalculated mem.toProcess n db.blockTree db.bestBlock
    rw [hindex]
    dsimp only
    rw [hsame.filesPresent_eq, hsame.recover_eq, length_sortedByHeight]
    by_cases hpresent : filesPresent files n.mapBlockIndex = true
    · rw [hpresent, if_neg (by decide)]
      by_cases hinc : inconsistent args db (entries n.mapBlockIndex).length = true
      · rw [if_pos hinc, recover_sound_iff]
        refine ⟨fun h _ => h, fun h => h ⟨by rw [hguts]; rfl, ?_, ?_⟩⟩
        · rw [hindex]
          exact hpresent
        · rw [hindex]
          exact hinc
      · rw [if_neg hinc]
        refine iff_of_true trivial fun h => absurd ?_ hinc
        rw [← hindex]
        exact h.inconsistent
    · rw [Bool.not_eq_true] at hpresent
      rw [hpresent, if_pos (by decide)]
      refine iff_of_true trivial fun h => ?_
      have hpresent' := h.present
      rw [hindex, hpresent] at hpresent'
      cases hpresent'

/-! A refused block. -/

def lonelyTx : CTransaction := ⟨1, 1, [], [], 0⟩

/-- Headers are hashed to their nonces. -/
def nonceHashes : Validation.Context where
  hashQuark _ _ _ _ _ nNonce := nNonce.setWidth 256
  maxReorganizationDepth := 100
  checkpointAllows _ _ := true
  lastCheckpoint := none
  rejectMajority _ _ := false
  enforceMajority _ _ := false

def youngChain : Params where
  Hash _ := 0
  modifierUpgradeBlock := 0
  nLastPOWBlock := 1000
  checkProofOfWork _ _ := true
  ctx := nonceHashes
  genesis := { hash := 1, hashPrevBlock := 0, nTime := 1500000000, nBits := 0x1e0ffff0
               vtx := [lonelyTx], nNonce := 1 }
  genesis_prev := rfl
  genesis_vtx := by decide

def refusedBlock : CBlock :=
  { hash := 2, hashPrevBlock := 1, nTime := 1500000060, nBits := 0x1e0ffff0, vtx := [lonelyTx]
    nNonce := 2 }

def plainMemory : Memory where
  literal := 0
  address hash := hash.toNat
  distinct _ _ := BitVec.eq_of_toNat_eq

def plainFiles : Files := ⟨fun _ => true, fun _ => 100⟩

/-- A block is stored and then refused by `ConnectBlock`. -/
def refusal : List Event :=
  [.acceptBlock refusedBlock ⟨true, 0, true, true, true, some ⟨0, 300⟩⟩,
    .connectTip 2 (.refused none true)]

/-- The process ends between the file information and the index entries. -/
def interrupted : Database :=
  (Runs.run (Session.step youngChain plainMemory.toProcess)
    (Session.init youngChain plainMemory.toProcess ⟨0, 8⟩) refusal).crash youngChain 2

theorem best_known_after_refusal :
    ((index youngChain interrupted).find interrupted.bestBlock).isSome :=
  best_known_after_run youngChain plainMemory.toProcess ⟨0, 8⟩ refusal 2 rfl (by rfl)

theorem interrupted_start_reads_outside :
    ¬(start youngChain plainMemory plainFiles ⟨false, false⟩ interrupted).Sound
      (index youngChain interrupted) interrupted.bestBlock := by
  have h : start youngChain plainMemory plainFiles ⟨false, false⟩ interrupted = .outside := by
    rfl
  rw [h]
  exact id

end Scrypta.UncleanStart
