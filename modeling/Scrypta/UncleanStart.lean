import Mathlib.Logic.Function.Defs
import Scrypta.Restart
import Scrypta.Toolkit.OrderStatistics

/-! The start after an unclean shutdown: a block is looked up by a height in the sorted list of all
entries, and processed again. -/

namespace Scrypta.UncleanStart

open BlockIndex
open OrderStatistics (kth)
open Validation (CDiskBlockIndex)

/-- What the start reads and writes of the information on a block file. -/
structure CBlockFileInfo where
  nSize : BitVec 32 := 0
  nHeightLast : BitVec 32 := 0
  deriving DecidableEq

/-- The block tree database and the best block of the coins database. -/
structure Database where
  blockTree : Dict Uint256 CDiskBlockIndex
  nLastBlockFile : ℕ
  blockFileInfo : ℕ → CBlockFileInfo
  shutdown : Option Bool
  bestBlock : Uint256

/-- A process in which no two entries are at one address. -/
structure Memory extends Process where
  distinct : Function.Injective address

/-- The block files: whether they can be opened, and the size of the block that is read from a
position, or that is there when none can be read. -/
structure Files where
  openBlockFile : ℕ → Bool
  serializeSize : Option DiskPos → ℕ

structure Args where
  forcestart : Bool
  reindex : Bool

def getBlockPos (e : Entry) : Option DiskPos :=
  if e.hasData then some ⟨e.nFile, e.nDataPos⟩ else none

def blockPosOf (m : BlockMap) (hash : Uint256) : Option DiskPos := (m.find hash).bind getBlockPos

/-- What is done to bring the block files and the index together. -/
structure Restart where
  pindexLastMeta : Uint256
  tip : Option Uint256
  blockPos : Option DiskPos
  pindexLast : Uint256
  lastPos : Option DiskPos
  info : CBlockFileInfo

inductive Start
  | failed
  | consistent
  /-- a read outside of `vSortedByHeight` -/
  | outside
  /-- `mapBlockIndex` has no entry for the best block -/
  | nullPointer
  | restarted (r : Restart)

section Machine

variable (par : Params) (mem : Memory) (files : Files) (args : Args) (db : Database)

/-- The number after the highest height in the last block file, as an `unsigned int`. -/
def nextHeight : ℕ := ((db.blockFileInfo db.nLastBlockFile).nHeightLast + 1).toNat

/-- The loop over the rest of the list: up to the first entry above a height, else to the end. -/
def lastMeta (m : BlockMap) (nHeight : ℕ) : Uint256 → List Uint256 → Uint256
  | pindexLastMeta, [] => pindexLastMeta
  | _, hash :: rest => if nHeight < heightOf m hash then hash else lastMeta m nHeight hash rest

def restartOf (m : BlockMap) (pindexLastMeta pindexLast : Uint256) : Restart where
  pindexLastMeta := pindexLastMeta
  tip := parent m pindexLastMeta
  blockPos := blockPosOf m pindexLastMeta
  pindexLast := pindexLast
  lastPos := blockPosOf m pindexLast
  info :=
    { nSize := BitVec.ofNat 32 ((blockPosOf m pindexLast).elim 0 DiskPos.nPos +
        files.serializeSize (blockPosOf m pindexLast))
      nHeightLast := BitVec.ofNat 32 (heightOf m pindexLast) }

def recover (m : BlockMap) (vSortedByHeight : List Uint256) : Start :=
  match vSortedByHeight.getLast? with
  | none => .outside
  | some pindexLast =>
    match vSortedByHeight[nextHeight db]? with
    | none => .outside
    | some first =>
      match m.find db.bestBlock with
      | none => .nullPointer
      | some pindexCoinsView =>
        .restarted (restartOf files m (lastMeta m pindexCoinsView.nHeight first
          (vSortedByHeight.drop (nextHeight db))) pindexLast)

/-- All block files that entries point to can be opened. -/
def filesPresent (m : BlockMap) : Bool :=
  m.toList.all fun x => !x.2.hasData || files.openBlockFile x.2.nFile

def inconsistent (nSize : ℕ) : Bool :=
  db.shutdown == some false && !args.forcestart && !args.reindex && nSize != nextHeight db &&
    (db.blockFileInfo db.nLastBlockFile).nHeightLast != 0

/-- `LoadBlockIndexDB` up to the end of the recovery. -/
def start : Start :=
  match loadBlockIndexGuts par db.blockTree with
  | none => .failed
  | some n =>
    let vSortedByHeight := sortedByHeight mem.toProcess n.mapBlockIndex
    let m := (recalculated mem.toProcess n db.blockTree db.bestBlock).mapBlockIndex
    if !filesPresent files m then .failed
    else if inconsistent args db vSortedByHeight.length then recover files db m vSortedByHeight
    else .consistent

end Machine

/-! The sums that are recomputed do not touch what the start looks at. -/

/-- Everything but what is recomputed. -/
def fixedPart (e : Entry) : Validation.IndexFields × Option Uint256 × ℕ :=
  (e.toIndexFields, e.pprev, e.nHeight)

/-- Two maps of the same entries, up to what is recomputed. -/
def SameEntries (m m' : BlockMap) : Prop :=
  ∀ hash, (m'.find hash).map fixedPart = (m.find hash).map fixedPart

namespace SameEntries

variable {m m' : BlockMap} {hash : Uint256}

theorem cases (h : SameEntries m m') (hash : Uint256) :
    (m.find hash = none ∧ m'.find hash = none) ∨ ∃ e e', m.find hash = some e ∧
      m'.find hash = some e' ∧ e'.toIndexFields = e.toIndexFields ∧ e'.pprev = e.pprev ∧
        e'.nHeight = e.nHeight := by
  have hh := h hash
  cases he : m.find hash with
  | none =>
    rw [he, Option.map_none, Option.map_eq_none_iff] at hh
    exact .inl ⟨rfl, hh⟩
  | some e =>
    rw [he, Option.map_some] at hh
    obtain ⟨e', he', heq⟩ := Option.map_eq_some_iff.1 hh
    have hfields := (Prod.mk.inj heq).1
    obtain ⟨hpprev, hheight⟩ := Prod.mk.inj (Prod.mk.inj heq).2
    exact .inr ⟨e, e', rfl, he', hfields, hpprev, hheight⟩

theorem heightOf_eq (h : SameEntries m m') (hash : Uint256) :
    heightOf m' hash = heightOf m hash := by
  rcases h.cases hash with ⟨he, he'⟩ | ⟨e, e', he, he', -, -, hheight⟩
  · rw [heightOf, heightOf, he, he']
  · rw [heightOf, heightOf, he, he', Option.elim_some, Option.elim_some, hheight]

theorem parent_eq (h : SameEntries m m') (hash : Uint256) : parent m' hash = parent m hash := by
  rcases h.cases hash with ⟨he, he'⟩ | ⟨e, e', he, he', -, hpprev, -⟩
  · rw [parent, parent, he, he']
  · rw [parent, parent, he, he', Option.bind_some, Option.bind_some, hpprev]

theorem blockPosOf_eq (h : SameEntries m m') (hash : Uint256) :
    blockPosOf m' hash = blockPosOf m hash := by
  rcases h.cases hash with ⟨he, he'⟩ | ⟨e, e', he, he', hfields, -, -⟩
  · rw [blockPosOf, blockPosOf, he, he']
  · rw [blockPosOf, blockPosOf, he, he', Option.bind_some, Option.bind_some, getBlockPos,
      getBlockPos, Entry.hasData, Entry.hasData, hfields]

theorem filesPresent_eq (h : SameEntries m m') (files : Files) :
    filesPresent files m' = filesPresent files m := by
  have hall : ∀ m : BlockMap, filesPresent files m = true ↔ ∀ hash e, m.find hash = some e →
      (!e.hasData || files.openBlockFile e.nFile) = true := by
    intro m
    rw [filesPresent, List.all_eq_true]
    exact ⟨fun hm hash e he => hm (hash, e) (Dict.mem_toList.2 he),
      fun hm x hx => hm x.1 x.2 (Dict.mem_toList.1 hx)⟩
  rw [Bool.eq_iff_iff, hall, hall]
  constructor
  · intro hm hash e he
    rcases h.cases hash with ⟨hnone, -⟩ | ⟨a, a', ha, ha', hfields, -, -⟩
    · rw [hnone] at he
      cases he
    · rw [he] at ha
      cases ha
      have hpresent := hm hash a' ha'
      rwa [Entry.hasData, hfields] at hpresent
  · intro hm hash e he
    rcases h.cases hash with ⟨-, hnone⟩ | ⟨a, a', ha, ha', hfields, -, -⟩
    · rw [hnone] at he
      cases he
    · rw [he] at ha'
      cases ha'
      have hpresent := hm hash a ha
      rwa [Entry.hasData, ← hfields] at hpresent

end SameEntries

theorem sameEntries_loadEntry (n : Node) (hash : Uint256) :
    SameEntries n.mapBlockIndex (loadEntry n hash).mapBlockIndex := by
  intro x
  rw [loadEntry]
  split
  · rfl
  · rename_i e he
    dsimp only
    rw [Dict.find_set]
    split
    · rename_i hx
      have he' : n.mapBlockIndex.find x = some e := hx ▸ he
      rw [he']
      rfl
    · rfl

theorem sameEntries_recalculated (proc : Process) (n : Node)
    (blockTree : Dict Uint256 CDiskBlockIndex) (bestBlock : Uint256) :
    SameEntries n.mapBlockIndex (recalculated proc n blockTree bestBlock).mapBlockIndex := by
  have hfold : ∀ (l : List Uint256) (n : Node),
      SameEntries n.mapBlockIndex (l.foldl loadEntry n).mapBlockIndex := by
    intro l
    induction l with
    | nil => exact fun n hash => rfl
    | cons hash l ih =>
      exact fun n x => (ih (loadEntry n hash) x).trans (sameEntries_loadEntry n hash x)
  exact hfold _ { n with blockTree := blockTree, bestBlock := bestBlock }

/-! The sorted list, told by counting. -/

section Sorted

variable (mem : Memory) (m : BlockMap)

def entries (m : BlockMap) : List Uint256 := m.toList.map Prod.fst

/-- How many entries are lower than an entry, or as high and at a lower address. -/
def placeOf (hash : Uint256) : ℕ :=
  (entries m).countP fun x => decide (heightOf m x < heightOf m hash ∨
    heightOf m x = heightOf m hash ∧ mem.address x < mem.address hash)

/-- How many entries are not above a height. -/
def numUpTo (nHeight : ℕ) : ℕ := (entries m).countP fun x => decide (heightOf m x ≤ nHeight)

variable {mem m}

theorem mem_entries {hash : Uint256} : hash ∈ entries m ↔ ∃ e, m.find hash = some e := by
  constructor
  · intro h
    obtain ⟨⟨x, e⟩, hmem, rfl⟩ := List.mem_map.1 h
    exact ⟨e, Dict.mem_toList.1 hmem⟩
  · rintro ⟨e, he⟩
    exact List.mem_map.2 ⟨(hash, e), Dict.mem_toList.2 he, rfl⟩

theorem length_sortedByHeight (mem : Memory) (m : BlockMap) :
    (sortedByHeight mem.toProcess m).length = (entries m).length :=
  List.length_insertionSort _ _

theorem getElem?_sortedByHeight {k : ℕ} {hash : Uint256} :
    (sortedByHeight mem.toProcess m)[k]? = some hash ↔
      hash ∈ entries m ∧ placeOf mem m hash = k := by
  have htotal : Std.Total fun a b : Uint256 =>
      heightOf m a < heightOf m b ∨ heightOf m a = heightOf m b ∧ mem.address a ≤ mem.address b :=
    ⟨fun a b => by omega⟩
  have htrans : IsTrans Uint256 fun a b : Uint256 =>
      heightOf m a < heightOf m b ∨ heightOf m a = heightOf m b ∧ mem.address a ≤ mem.address b :=
    ⟨fun a b c _ _ => by omega⟩
  refine (OrderStatistics.kth_eq_some_iff_countP (a := hash) m.nodup_keys
    fun a b hab hba => mem.distinct (by omega)).trans ?_
  refine and_congr_right fun _ => ?_
  have hcount : (entries m).countP (fun b => !decide (heightOf m hash < heightOf m b ∨
      heightOf m hash = heightOf m b ∧ mem.address hash ≤ mem.address b)) = placeOf mem m hash := by
    refine List.countP_congr fun b _ => ?_
    rw [Bool.not_eq_true', decide_eq_false_iff_not, decide_eq_true_iff]
    omega
  exact Eq.congr_left hcount

/-- The first entry above a height, from a place on. -/
theorem find?_sortedByHeight (mem : Memory) (m : BlockMap) (k nHeight : ℕ) :
    ((sortedByHeight mem.toProcess m).drop k).find? (fun x => decide (nHeight < heightOf m x)) =
      (sortedByHeight mem.toProcess m)[max k (numUpTo m nHeight)]? := by
  have hcount : (sortedByHeight mem.toProcess m).countP (fun x => decide (heightOf m x ≤ nHeight)) =
      numUpTo m nHeight := (List.perm_insertionSort _ _).countP_eq _
  rw [← hcount, ← OrderStatistics.find?_drop (pairwise_sortedByHeight mem.toProcess m)
    fun a b hab hb => decide_eq_true (hab.trans (of_decide_eq_true hb))]
  congr 1
  funext x
  rw [← decide_not, decide_eq_decide]
  omega

theorem lastMeta_eq (m : BlockMap) (nHeight : ℕ) (first : Uint256) (l : List Uint256) :
    lastMeta m nHeight first l = match l.find? fun x => decide (nHeight < heightOf m x) with
      | some hash => hash
      | none => l.getLast?.getD first := by
  induction l generalizing first with
  | nil => rfl
  | cons x l ih =>
    rw [lastMeta, List.find?_cons]
    by_cases hx : nHeight < heightOf m x
    · rw [if_pos hx, decide_eq_true hx]
    · rw [if_neg hx, ih, decide_eq_false hx]
      cases l.find? fun x => decide (nHeight < heightOf m x) with
      | some hash => rfl
      | none => cases l <;> rfl

end Sorted

/-! When the start is sound. -/

/-- Nothing is read where it is not, and the block that is processed again is the first one above
the best block of the coins, on its chain. -/
def Start.Sound (m : BlockMap) (bestBlock : Uint256) : Start → Prop
  | .failed => True
  | .consistent => True
  | .outside => False
  | .nullPointer => False
  | .restarted r => r.blockPos.isSome ∧ r.lastPos.isSome ∧
      parent m r.pindexLastMeta = some bestBlock ∧
        heightOf m bestBlock < heightOf m r.pindexLastMeta

section Condition

variable (par : Params) (mem : Memory) (files : Files) (args : Args) (db : Database)

/-- The index that is read from the database. -/
def index : BlockMap := (loadBlockIndexGuts par db.blockTree).elim Dict.empty (·.mapBlockIndex)

/-- The start finds that the block files and the index do not agree. -/
structure Recovers : Prop where
  loads : (loadBlockIndexGuts par db.blockTree).isSome
  present : filesPresent files (index par db) = true
  inconsistent : inconsistent args db (entries (index par db)).length = true

/-- There are more entries than the height in the file information says, the highest of them and
the best block of the coins are known with their data, and a child of the best block is in the
right place among all entries. -/
structure Orderly (m : BlockMap) : Prop where
  inside : nextHeight db < (entries m).length
  known : (m.find db.bestBlock).isSome
  top : ∀ hash e, m.find hash = some e → placeOf mem m hash + 1 = (entries m).length →
    e.hasData = true
  restart : ∃ hash e, m.find hash = some e ∧ e.pprev = some db.bestBlock ∧
    heightOf m db.bestBlock < e.nHeight ∧ e.hasData = true ∧
      placeOf mem m hash = max (nextHeight db) (numUpTo m (heightOf m db.bestBlock))

end Condition

section Recovery

variable {mem : Memory} {files : Files} {db : Database} {m m' : BlockMap} {hash : Uint256}

theorem isSome_blockPosOf : (blockPosOf m hash).isSome = true ↔
    ∃ e, m.find hash = some e ∧ e.hasData = true := by
  rw [blockPosOf]
  cases he : m.find hash with
  | none => simp
  | some e =>
    rw [Option.bind_some, getBlockPos]
    cases hdata : e.hasData <;> simp [hdata]

theorem heightOf_of_find {e : Entry} (he : m.find hash = some e) : heightOf m hash = e.nHeight := by
  rw [heightOf, he, Option.elim_some]

theorem parent_of_find {e : Entry} (he : m.find hash = some e) : parent m hash = e.pprev := by
  rw [parent, he, Option.bind_some]

/-- The last entry of the list is the one that all others come before. -/
theorem getLast?_sortedByHeight : (sortedByHeight mem.toProcess m).getLast? = some hash ↔
    hash ∈ entries m ∧ placeOf mem m hash + 1 = (entries m).length := by
  rw [List.getLast?_eq_getElem?, getElem?_sortedByHeight, length_sortedByHeight]
  refine and_congr_right fun hmem => ?_
  have hpos : 0 < (entries m).length := List.length_pos_of_mem hmem
  omega

/-- The loop ends at an entry above the height exactly where there is one from the place on. -/
theorem lastMeta_above_iff {nHeight k : ℕ} {first : Uint256}
    (hfirst : (sortedByHeight mem.toProcess m)[k]? = some first) :
    (nHeight < heightOf m (lastMeta m nHeight first ((sortedByHeight mem.toProcess m).drop k)) ∧
      lastMeta m nHeight first ((sortedByHeight mem.toProcess m).drop k) = hash) ↔
    hash ∈ entries m ∧ placeOf mem m hash = max k (numUpTo m nHeight) := by
  have hfind := find?_sortedByHeight mem m k nHeight
  rw [lastMeta_eq]
  cases hx : ((sortedByHeight mem.toProcess m).drop k).find?
      fun x => decide (nHeight < heightOf m x) with
  | some x =>
    rw [hx] at hfind
    have habove : nHeight < heightOf m x := by simpa using List.find?_some hx
    dsimp only
    rw [← getElem?_sortedByHeight, ← hfind, Option.some.injEq]
    exact and_iff_right habove
  | none =>
    rw [hx] at hfind
    dsimp only
    refine iff_of_false ?_ fun h => ?_
    · rintro ⟨habove, -⟩
      have hk : k < (sortedByHeight mem.toProcess m).length :=
        (List.getElem?_eq_some_iff.1 hfirst).1
      have hne : (sortedByHeight mem.toProcess m).drop k ≠ [] := by
        rw [Ne, List.drop_eq_nil_iff]
        omega
      rw [List.getLast?_eq_getLast_of_ne_nil hne, Option.getD_some] at habove
      have hnot := List.find?_eq_none.1 hx _ (List.getLast_mem hne)
      exact hnot (decide_eq_true habove)
    · rw [← getElem?_sortedByHeight, ← hfind] at h
      cases h

/-- The block that the loop ends at is the right one exactly where a child of the best block is in
its place. -/
theorem restart_iff {best first b : Uint256} {k : ℕ}
    (hfirst : (sortedByHeight mem.toProcess m)[k]? = some first)
    (hb : lastMeta m (heightOf m best) first ((sortedByHeight mem.toProcess m).drop k) = b) :
    ((blockPosOf m b).isSome = true ∧ parent m b = some best ∧ heightOf m best < heightOf m b) ↔
    ∃ hash e, m.find hash = some e ∧ e.pprev = some best ∧ heightOf m best < e.nHeight ∧
      e.hasData = true ∧ placeOf mem m hash = max k (numUpTo m (heightOf m best)) := by
  rw [isSome_blockPosOf]
  constructor
  · rintro ⟨⟨e, he, hdata⟩, hparent, habove⟩
    have hplace := ((lastMeta_above_iff hfirst).1 ⟨hb ▸ habove, hb⟩).2
    exact ⟨b, e, he, (parent_of_find he).symm.trans hparent, heightOf_of_find he ▸ habove, hdata,
      hplace⟩
  · rintro ⟨hash, e, he, hpprev, habove, hdata, hplace⟩
    have hlast := ((lastMeta_above_iff hfirst).2 ⟨mem_entries.2 ⟨e, he⟩, hplace⟩).2
    obtain rfl : hash = b := hlast.symm.trans hb
    rw [parent_of_find he, heightOf_of_find he]
    exact ⟨⟨e, he, hdata⟩, hpprev, habove⟩

theorem SameEntries.lastMeta_eq (h : SameEntries m m') (nHeight : ℕ) (first : Uint256)
    (l : List Uint256) : lastMeta m' nHeight first l = lastMeta m nHeight first l := by
  induction l generalizing first with
  | nil => rfl
  | cons x l ih => rw [lastMeta, lastMeta, ih, h.heightOf_eq]

/-- The recovery looks at nothing that is recomputed. -/
theorem SameEntries.recover_eq (h : SameEntries m m') (l : List Uint256) :
    recover files db m' l = recover files db m l := by
  have hrestart : ∀ b last, restartOf files m' b last = restartOf files m b last := by
    intro b last
    rw [restartOf, restartOf, h.parent_eq, h.blockPosOf_eq, h.blockPosOf_eq, h.heightOf_eq]
  rw [recover, recover]
  rcases h.cases db.bestBlock with ⟨he, he'⟩ | ⟨e, e', he, he', -, -, hheight⟩
  · rw [he, he']
  · rw [he, he']
    dsimp only
    rw [hheight]
    simp only [hrestart, h.lastMeta_eq]

theorem recover_sound_iff :
    (recover files db m (sortedByHeight mem.toProcess m)).Sound m db.bestBlock ↔
      Orderly mem db m := by
  rw [recover]
  cases hlast : (sortedByHeight mem.toProcess m).getLast? with
  | none =>
    have hempty : (entries m).length = 0 := by
      rw [← length_sortedByHeight mem m, List.getLast?_eq_none_iff.1 hlast, List.length_nil]
    exact iff_of_false id fun h => absurd h.inside (by omega)
  | some last =>
    cases hfirst : (sortedByHeight mem.toProcess m)[nextHeight db]? with
    | none =>
      rw [List.getElem?_eq_none_iff, length_sortedByHeight] at hfirst
      exact iff_of_false id fun h => absurd h.inside (by omega)
    | some first =>
      have hinside : nextHeight db < (entries m).length := by
        rw [← length_sortedByHeight mem m]
        exact (List.getElem?_eq_some_iff.1 hfirst).1
      cases hbest : m.find db.bestBlock with
      | none =>
        refine iff_of_false id fun h => ?_
        have hknown := h.known
        rw [hbest] at hknown
        cases hknown
      | some best =>
        obtain ⟨b, hb⟩ : ∃ b, lastMeta m (heightOf m db.bestBlock) first
            ((sortedByHeight mem.toProcess m).drop (nextHeight db)) = b := ⟨_, rfl⟩
        have hrestart := restart_iff hfirst hb
        obtain ⟨hlastmem, hlastplace⟩ := getLast?_sortedByHeight.1 hlast
        dsimp only
        rw [← heightOf_of_find hbest, hb]
        constructor
        · rintro ⟨hpos, hlastpos, hparent, habove⟩
          refine ⟨hinside, by rw [hbest]; rfl, fun hash e he hplace => ?_,
            hrestart.1 ⟨hpos, hparent, habove⟩⟩
          have hhash := getLast?_sortedByHeight.2 ⟨mem_entries.2 ⟨e, he⟩, hplace⟩
          obtain rfl : last = hash := Option.some.inj (hlast.symm.trans hhash)
          obtain ⟨e', he', hdata⟩ := isSome_blockPosOf.1 hlastpos
          rw [he] at he'
          cases he'
          exact hdata
        · intro h
          obtain ⟨hpos, hparent, habove⟩ := hrestart.2 h.restart
          obtain ⟨e, he⟩ := mem_entries.1 hlastmem
          exact ⟨hpos, isSome_blockPosOf.2 ⟨e, he, h.top last e he hlastplace⟩, hparent, habove⟩

end Recovery

end Scrypta.UncleanStart
