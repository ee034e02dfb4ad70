import Scrypta.MempoolAdmission
import Scrypta.Toolkit.Cursors
import Scrypta.Toolkit.Worklist

/-! How transactions leave the memory pool. A removal follows the outputs of what it takes out
through `mapNextTx`, which has one mark for each input of each transaction of the pool. -/

namespace Scrypta.Mempool

open Worklist
open Validation (Params spendOf)

def CTxMemPoolEntry.getTxSize (entry : CTxMemPoolEntry) : ℕ := entry.tx.getSerializeSize

/-- The pool with its counters. -/
structure CountedPool extends CTxMemPool where
  totalTxSize : BitVec 64
  nTransactionsUpdated : BitVec 32

/-- Who spends the outputs of a transaction, in their order. -/
def CTxMemPool.spenders (pool : CTxMemPool) (hash : Uint256) (vout : List CTxOut) : List Uint256 :=
  (List.range vout.length).filterMap fun i =>
    (pool.mapNextTx.find ⟨hash, BitVec.ofNat 32 i⟩).map fun it => it.1.getHash

namespace CountedPool

/-- One turn of the loop of `remove`, for a hash from the front of the queue. -/
def takeTx (fRecursive : Bool) (pool : CountedPool) (hash : Uint256) :
    Option (CTransaction × List Uint256 × CountedPool) :=
  (pool.mapTx.find hash).map fun entry =>
    (entry.tx, if fRecursive then pool.spenders hash entry.tx.vout else [],
      { pool with
        mapTx := pool.mapTx.erase hash
        mapNextTx := pool.mapNextTx.eraseAll entry.tx.prevouts
        totalTxSize := pool.totalTxSize - BitVec.ofNat 64 entry.getTxSize
        nTransactionsUpdated := pool.nTransactionsUpdated + 1 })

theorem takeTx_eq_some {fRecursive : Bool} {pool pool' : CountedPool} {hash : Uint256}
    {tx : CTransaction} {next : List Uint256} :
    takeTx fRecursive pool hash = some (tx, next, pool') ↔
      ∃ entry, pool.mapTx.find hash = some entry ∧ entry.tx = tx ∧
        (if fRecursive then pool.spenders hash entry.tx.vout else []) = next ∧
        { pool with
          mapTx := pool.mapTx.erase hash
          mapNextTx := pool.mapNextTx.eraseAll entry.tx.prevouts
          totalTxSize := pool.totalTxSize - BitVec.ofNat 64 entry.getTxSize
          nTransactionsUpdated := pool.nTransactionsUpdated + 1 } = pool' := by
  simp only [takeTx, Option.map_eq_some_iff, Prod.mk.injEq]

/-- The loop of `remove`. -/
def removal (fRecursive : Bool) : Machine CountedPool Uint256 CTransaction where
  take := takeTx fRecursive
  size pool := pool.mapTx.size
  shrinks h := by
    obtain ⟨entry, hfind, -, -, rfl⟩ := takeTx_eq_some.mp h
    have hsize := Dict.size_erase hfind
    dsimp only
    omega

/-- What the queue holds at first: the transaction, or who spends it when it is not there. -/
def roots (fRecursive : Bool) (pool : CTxMemPool) (origTx : CTransaction) : List Uint256 :=
  origTx.getHash ::
    if fRecursive && !pool.mapTx.count origTx.getHash then
      pool.spenders origTx.getHash origTx.vout
    else []

/-- What was removed, in order, and the pool after it. -/
def remove (pool : CountedPool) (origTx : CTransaction) (fRecursive : Bool) :
    List CTransaction × CountedPool :=
  (removal fRecursive).sweep (roots fRecursive pool.toCTxMemPool origTx) pool

/-- `removeConflicts` for one input of the transaction. -/
def removeConflict (tx : CTransaction) (r : List CTransaction × CountedPool) (txin : CTxIn) :
    List CTransaction × CountedPool :=
  match r.2.mapNextTx.find txin.prevout with
  | none => r
  | some it =>
    if it.1.getHash = tx.getHash then r
    else
      let gone := r.2.remove it.1 true
      (r.1 ++ gone.1, gone.2)

def removeConflicts (pool : CountedPool) (tx : CTransaction) : List CTransaction × CountedPool :=
  tx.vin.foldl (removeConflict tx) ([], pool)

def clearPrioritisation (pool : CountedPool) (hash : Uint256) : CountedPool :=
  { pool with mapDeltas := fun h => if h = hash then none else pool.mapDeltas h }

/-- `removeForBlock` for one transaction of the block. -/
def removeMined (r : List CTransaction × CountedPool) (tx : CTransaction) :
    List CTransaction × CountedPool :=
  let conflicts := (r.2.remove tx false).2.removeConflicts tx
  (r.1 ++ conflicts.1, conflicts.2.clearPrioritisation tx.getHash)

/-- The conflicts that were removed and the pool. The fee estimator hears of the block first. -/
def removeForBlock (pool : CountedPool) (vtx : List CTransaction) :
    List CTransaction × CountedPool :=
  vtx.foldl removeMined ([], pool)

/-- An input that is not of the pool and has no coins, or coins of a block that are too young. The
subtraction is one of unsigned words. -/
def spendsImmature (par : Params) (pool : CTxMemPool) (pcoins : CCoinsViewCache)
    (nMemPoolHeight : ℕ) (txin : CTxIn) : Bool :=
  !pool.mapTx.count txin.prevout.hash &&
    match pcoins.accessCoins txin.prevout.hash with
    | none => true
    | some coins => (coins.fCoinBase || coins.fCoinStake) &&
        decide ((toUInt32 (nMemPoolHeight - coins.nHeight) : ℤ) < par.nMaturity)

def transactionsToRemove (par : Params) (pool : CTxMemPool) (pcoins : CCoinsViewCache)
    (nMemPoolHeight : ℕ) : List CTransaction :=
  ((pool.mapTx.inOrder BitVec.toNat).map fun it => it.2.tx).filter fun tx =>
    tx.vin.any (spendsImmature par pool pcoins nMemPoolHeight)

theorem mem_transactionsToRemove {par : Params} {pool : CTxMemPool} {pcoins : CCoinsViewCache}
    {nMemPoolHeight : ℕ} {h : Uint256} {e : CTxMemPoolEntry} (he : pool.mapTx.find h = some e)
    {txin : CTxIn} (hin : txin ∈ e.tx.vin)
    (hyoung : spendsImmature par pool pcoins nMemPoolHeight txin = true) :
    e.tx ∈ transactionsToRemove par pool pcoins nMemPoolHeight :=
  List.mem_filter.mpr ⟨List.mem_map.mpr ⟨(h, e), Dict.mem_inOrder.mpr he, rfl⟩,
    List.any_eq_true.mpr ⟨txin, hin, hyoung⟩⟩

def removeCoinbaseSpends (par : Params) (pool : CountedPool) (pcoins : CCoinsViewCache)
    (nMemPoolHeight : ℕ) : CountedPool :=
  (transactionsToRemove par pool.toCTxMemPool pcoins nMemPoolHeight).foldl
    (fun pool tx => (pool.remove tx true).2) pool

def clear (pool : CountedPool) : CountedPool :=
  { pool with
    mapTx := Dict.empty
    mapNextTx := Dict.empty
    totalTxSize := 0
    nTransactionsUpdated := pool.nTransactionsUpdated + 1 }

def addUnchecked (pool : CountedPool) (hash : Uint256) (entry : CTxMemPoolEntry) : CountedPool :=
  { pool.toCTxMemPool.addUnchecked hash entry with
    totalTxSize := pool.totalTxSize + BitVec.ofNat 64 entry.getTxSize
    nTransactionsUpdated := pool.nTransactionsUpdated + 1 }

end CountedPool

/-- What `check` asserts of the maps and of the counter of bytes. -/
structure Linked (pool : CountedPool) : Prop where
  hash : ∀ {h e}, pool.mapTx.find h = some e → e.tx.getHash = h
  marked : ∀ {h e}, pool.mapTx.find h = some e → ∀ {i txin}, e.tx.vin[i]? = some txin →
    pool.mapNextTx.find txin.prevout = some (e.tx, i)
  marks : ∀ {p tx i}, pool.mapNextTx.find p = some (tx, i) →
    ∃ e txin, pool.mapTx.find tx.getHash = some e ∧ e.tx = tx ∧ tx.vin[i]? = some txin ∧
      txin.prevout = p
  total : pool.totalTxSize = BitVec.ofInt 64 (pool.mapTx.sum fun e => e.getTxSize)

section Removal

variable {pool pool' : CountedPool} {tx : CTransaction} {hash : Uint256} {entry : CTxMemPoolEntry}

/-- No output is spent twice in the pool. -/
theorem Linked.eq_of_prevout (hl : Linked pool) {h h' : Uint256} {e e' : CTxMemPoolEntry}
    (he : pool.mapTx.find h = some e) (he' : pool.mapTx.find h' = some e') {p : COutPoint}
    (hp : p ∈ e.tx.prevouts) (hp' : p ∈ e'.tx.prevouts) : h = h' := by
  obtain ⟨txin, hin, hprev⟩ := List.mem_map.mp hp
  obtain ⟨txin', hin', hprev'⟩ := List.mem_map.mp hp'
  obtain ⟨i, hi⟩ := List.mem_iff_getElem?.mp hin
  obtain ⟨j, hj⟩ := List.mem_iff_getElem?.mp hin'
  have hmark := hl.marked he hi
  rw [hprev, ← hprev', hl.marked he' hj] at hmark
  have htx : e'.tx = e.tx := congrArg Prod.fst (Option.some.inj hmark)
  rw [← hl.hash he, ← hl.hash he', htx]

theorem Linked.spends (hl : Linked pool) {p : COutPoint} {i : ℕ}
    (h : pool.mapNextTx.find p = some (tx, i)) :
    ∃ e, pool.mapTx.find tx.getHash = some e ∧ e.tx = tx ∧ p ∈ tx.prevouts := by
  obtain ⟨e, txin, hfind, htx, hin, hprev⟩ := hl.marks h
  exact ⟨e, hfind, htx, List.mem_map.mpr ⟨txin, List.mem_of_getElem? hin, hprev⟩⟩

/-- The maps without one transaction. -/
theorem Linked.without (hl : Linked pool) (hfind : pool.mapTx.find hash = some entry)
    (nUpdated : BitVec 32) :
    Linked { pool with
      mapTx := pool.mapTx.erase hash
      mapNextTx := pool.mapNextTx.eraseAll entry.tx.prevouts
      totalTxSize := pool.totalTxSize - BitVec.ofNat 64 entry.getTxSize
      nTransactionsUpdated := nUpdated } where
  hash he := by
    rw [Dict.find_erase] at he
    split at he
    · cases he
    · exact hl.hash he
  marked {h e} he {i txin} hin := by
    rw [Dict.find_erase] at he
    split at he
    · cases he
    · next hne =>
      rw [Dict.find_eraseAll, if_neg]
      · exact hl.marked he hin
      · intro hmem
        exact hne (hl.eq_of_prevout he hfind
          (List.mem_map.mpr ⟨txin, List.mem_of_getElem? hin, rfl⟩) hmem)
  marks {p tx i} h := by
    rw [Dict.find_eraseAll] at h
    split at h
    · cases h
    · next hnot =>
      obtain ⟨e, txin, he, htx, hin, hprev⟩ := hl.marks h
      refine ⟨e, txin, ?_, htx, hin, hprev⟩
      rw [Dict.find_erase, if_neg]
      · exact he
      · intro hsame
        rw [hsame, hfind] at he
        rw [Option.some.inj he, htx] at hnot
        exact hnot (List.mem_map.mpr ⟨txin, List.mem_of_getElem? hin, hprev⟩)
  total := by
    dsimp only
    rw [Dict.sum_erase hfind, hl.total, Int.sub_eq_add_neg, BitVec.ofInt_add, BitVec.ofInt_neg,
      BitVec.ofInt_natCast, BitVec.sub_eq_add_neg]

theorem Linked.of_take {fRecursive : Bool} {next : List Uint256} (hl : Linked pool)
    (h : CountedPool.takeTx fRecursive pool hash = some (tx, next, pool')) : Linked pool' := by
  obtain ⟨entry, hfind, -, -, rfl⟩ := CountedPool.takeTx_eq_some.mp h
  exact hl.without hfind _

/-- An entry of the pool spends one of the outputs. -/
def SpendsFrom (hash : Uint256) (vout : List CTxOut) (e : CTxMemPoolEntry) : Prop :=
  ∃ p ∈ e.tx.prevouts, p.hash = hash ∧ p.n.toNat < vout.length

theorem Linked.mem_spenders (hl : Linked pool) {h : Uint256} {e : CTxMemPoolEntry}
    (he : pool.mapTx.find h = some e) (vout : List CTxOut) :
    h ∈ pool.spenders hash vout ↔ SpendsFrom hash vout e := by
  simp only [CTxMemPool.spenders, List.mem_filterMap, List.mem_range, Option.map_eq_some_iff]
  constructor
  · intro hmem
    obtain ⟨i, hi, ⟨tx, j⟩, hmark, hhash⟩ := hmem
    obtain ⟨e', he', htx, hin⟩ := hl.spends hmark
    dsimp only at hhash
    rw [hhash, he] at he'
    rw [← htx, ← Option.some.inj he'] at hin
    refine ⟨_, hin, rfl, lt_of_le_of_lt ?_ hi⟩
    rw [BitVec.toNat_ofNat]
    exact Nat.mod_le _ _
  · intro hspends
    obtain ⟨p, hp, hph, hn⟩ := hspends
    obtain ⟨txin, hin, hprev⟩ := List.mem_map.mp hp
    obtain ⟨j, hj⟩ := List.mem_iff_getElem?.mp hin
    refine ⟨p.n.toNat, hn, (e.tx, j), ?_, hl.hash he⟩
    have hsame : (⟨hash, BitVec.ofNat 32 p.n.toNat⟩ : COutPoint) = txin.prevout := by
      rw [BitVec.ofNat_toNat, BitVec.setWidth_eq, hprev, ← hph]
    rw [hsame]
    exact hl.marked he hj

end Removal

/-- One transaction of the pool spends an output of another. -/
def Child (pool : CTxMemPool) (a b : Uint256) : Prop :=
  ∃ ea eb, pool.mapTx.find a = some ea ∧ pool.mapTx.find b = some eb ∧ SpendsFrom a ea.tx.vout eb

/-- What is in the pool of a transaction and of what comes from its outputs. -/
inductive Descends (pool : CTxMemPool) (tx : CTransaction) : Uint256 → Prop
  | self {e : CTxMemPoolEntry} (he : pool.mapTx.find tx.getHash = some e) :
      Descends pool tx tx.getHash
  | spends {h : Uint256} {e : CTxMemPoolEntry} (hgone : pool.mapTx.find tx.getHash = none)
      (he : pool.mapTx.find h = some e) (hs : SpendsFrom tx.getHash tx.vout e) :
      Descends pool tx h
  | child {a b : Uint256} (ha : Descends pool tx a) (hab : Child pool a b) : Descends pool tx b

/-- A linked pool without some of the transactions of another. -/
structure Part (pool₀ pool : CountedPool) : Prop where
  linked : Linked pool
  part : ∀ {h e}, pool.mapTx.find h = some e → pool₀.mapTx.find h = some e

theorem Linked.self_part {pool : CountedPool} (hl : Linked pool) : Part pool pool := ⟨hl, id⟩

theorem Part.trans {pool₀ pool₁ pool₂ : CountedPool} (h : Part pool₀ pool₁)
    (h' : Part pool₁ pool₂) : Part pool₀ pool₂ :=
  ⟨h'.linked, fun hfind => h.part (h'.part hfind)⟩

section Remove

variable {pool₀ pool pool' : CountedPool} {tx : CTransaction} {h : Uint256} {e : CTxMemPoolEntry}

def Has (pool : CountedPool) (h : Uint256) : Prop := pool.mapTx.count h = true

theorem has_iff : Has pool h ↔ ∃ e, pool.mapTx.find h = some e := Dict.count_eq_true

theorem find_eq_none_of_not_has (hno : ¬Has pool h) : pool.mapTx.find h = none :=
  Option.eq_none_iff_forall_ne_some.mpr fun e he => hno (has_iff.mpr ⟨e, he⟩)

/-- The loop of `remove` follows the outputs of what it removes. -/
theorem removal_follows (fRecursive : Bool) (pool₀ : CountedPool) :
    (CountedPool.removal fRecursive).Follows (Part pool₀) Has
      (fun a b => fRecursive = true ∧ Child pool₀.toCTxMemPool a b) CTransaction.getHash where
  absent {pool a} _ := by
    change (pool.mapTx.find a).map _ = none ↔ _
    rw [Option.map_eq_none_iff, Has, Dict.count_eq_true, Option.eq_none_iff_forall_ne_some]
    exact not_exists.symm
  label hpart htake := by
    obtain ⟨entry, hfind, rfl, -, -⟩ := CountedPool.takeTx_eq_some.mp htake
    exact hpart.linked.hash hfind
  keeps hpart htake := by
    refine ⟨hpart.linked.of_take htake, fun hfind => ?_⟩
    obtain ⟨entry, -, -, -, rfl⟩ := CountedPool.takeTx_eq_some.mp htake
    rw [Dict.find_erase] at hfind
    split at hfind
    · cases hfind
    · exact hpart.part hfind
  leaves {pool a tx next pool'} _ htake b := by
    obtain ⟨entry, -, -, -, rfl⟩ := CountedPool.takeTx_eq_some.mp htake
    simp only [has_iff, Dict.find_erase]
    by_cases hb : b = a
    · simp [hb]
    · simp [hb]
  names {pool a tx next pool'} hpart htake b hb := by
    obtain ⟨entry, hfind, -, rfl, -⟩ := CountedPool.takeTx_eq_some.mp htake
    obtain ⟨eb, heb⟩ := has_iff.mp hb
    cases fRecursive with
    | false => simp
    | true =>
      rw [if_pos rfl, hpart.linked.mem_spenders heb]
      constructor
      · intro hspends
        exact ⟨rfl, entry, eb, hpart.part hfind, hpart.part heb, hspends⟩
      · intro hchild
        obtain ⟨-, ea, eb', hea, heb', hspends⟩ := hchild
        rw [hpart.part hfind] at hea
        rw [hpart.part heb] at heb'
        cases hea
        cases heb'
        exact hspends

theorem reaches_roots (hl : Linked pool) :
    (∃ a ∈ CountedPool.roots true pool.toCTxMemPool tx,
      Machine.Reaches Has (fun a b => true = true ∧ Child pool.toCTxMemPool a b) pool a h) ↔
    Descends pool.toCTxMemPool tx h := by
  constructor
  · intro hex
    obtain ⟨a, ha, hhas, hpath⟩ := hex
    have hroot : Descends pool.toCTxMemPool tx a := by
      obtain ⟨ea, hea⟩ := has_iff.mp hhas
      rcases List.mem_cons.mp ha with rfl | ha
      · exact .self hea
      · split at ha
        · next hcond =>
          rw [Bool.true_and, Bool.not_eq_true', Dict.count_eq_false] at hcond
          exact .spends hcond hea ((hl.mem_spenders hea _).mp ha)
        · cases ha
    induction hpath with
    | refl => exact hroot
    | tail _ hstep ih => exact .child ih hstep.1.2
  · intro hdesc
    induction hdesc with
    | self he => exact ⟨_, List.mem_cons_self, has_iff.mpr ⟨_, he⟩, .refl⟩
    | @spends h e hgone he hs =>
      refine ⟨h, List.mem_cons_of_mem _ ?_, has_iff.mpr ⟨e, he⟩, .refl⟩
      rw [Dict.count_eq_false.mpr hgone]
      exact (hl.mem_spenders he _).mpr hs
    | @child a b _ hab ih =>
      obtain ⟨x, hx, hhas, hpath⟩ := ih
      obtain ⟨ea, eb, hea, heb, hspends⟩ := hab
      exact ⟨x, hx, hhas, hpath.tail ⟨⟨rfl, ea, eb, hea, heb, hspends⟩, has_iff.mpr ⟨eb, heb⟩⟩⟩

theorem Linked.remove_part (hl : Linked pool) (tx : CTransaction) (fRecursive : Bool) :
    Part pool (pool.remove tx fRecursive).2 :=
  (removal_follows fRecursive pool).sweep_inv hl.self_part

theorem Part.find_iff (hpart : Part pool pool') :
    pool'.mapTx.find h = some e ↔ pool.mapTx.find h = some e ∧ Has pool' h := by
  constructor
  · intro hfind
    exact ⟨hpart.part hfind, has_iff.mpr ⟨e, hfind⟩⟩
  · intro hboth
    obtain ⟨e', he'⟩ := has_iff.mp hboth.2
    rw [he', ← hpart.part he', hboth.1]

/-- A recursive removal leaves what does not descend from the transaction. -/
theorem Linked.find_remove (hl : Linked pool) :
    (pool.remove tx true).2.mapTx.find h = some e ↔
      pool.mapTx.find h = some e ∧ ¬Descends pool.toCTxMemPool tx h := by
  rw [(hl.remove_part tx true).find_iff, CountedPool.remove,
    (removal_follows true pool).sweep_has hl.self_part, reaches_roots hl]
  constructor
  · intro hall
    exact ⟨hall.1, hall.2.2⟩
  · intro hall
    exact ⟨hall.1, has_iff.mpr ⟨e, hall.1⟩, hall.2⟩

/-- A removal that does not recurse leaves the others. -/
theorem Linked.find_remove_one (hl : Linked pool) :
    (pool.remove tx false).2.mapTx.find h = some e ↔
      pool.mapTx.find h = some e ∧ h ≠ tx.getHash := by
  have hreach : (∃ a ∈ CountedPool.roots false pool.toCTxMemPool tx,
      Machine.Reaches Has (fun a b => false = true ∧ Child pool.toCTxMemPool a b) pool a h) ↔
      Has pool h ∧ h = tx.getHash := by
    constructor
    · intro hex
      obtain ⟨a, ha, hhas, hpath⟩ := hex
      have hroot : a = tx.getHash := List.mem_singleton.mp ha
      induction hpath with
      | refl => exact ⟨hhas, hroot⟩
      | tail _ hstep _ => exact absurd hstep.1.1 Bool.false_ne_true
    · intro hboth
      exact ⟨tx.getHash, List.mem_cons_self, hboth.2 ▸ hboth.1, hboth.2 ▸ .refl⟩
  rw [(hl.remove_part tx false).find_iff, CountedPool.remove,
    (removal_follows false pool).sweep_has hl.self_part, hreach]
  constructor
  · intro hall
    exact ⟨hall.1, fun heq => hall.2.2 ⟨hall.2.1, heq⟩⟩
  · intro hall
    exact ⟨hall.1, has_iff.mpr ⟨e, hall.1⟩, fun hboth => hall.2 hboth.2⟩

theorem Descends.has (hdesc : Descends pool.toCTxMemPool tx h) : Has pool h := by
  cases hdesc with
  | self he => exact has_iff.mpr ⟨_, he⟩
  | spends _ he _ => exact has_iff.mpr ⟨_, he⟩
  | child _ hab =>
    obtain ⟨_, eb, _, heb, _⟩ := hab
    exact has_iff.mpr ⟨eb, heb⟩

/-- What a removal takes out is what the pool has lost. -/
theorem Linked.mem_removed (hl : Linked pool) :
    h ∈ (pool.remove tx true).1.map CTransaction.getHash ↔ Descends pool.toCTxMemPool tx h := by
  rw [CountedPool.remove, (removal_follows true pool).mem_sweep hl.self_part,
    (removal_follows true pool).sweep_has hl.self_part, reaches_roots hl]
  constructor
  · intro hall
    by_contra hno
    exact hall.2 ⟨hall.1, hno⟩
  · intro hdesc
    exact ⟨hdesc.has, fun hleft => hleft.2 hdesc⟩

/-- A recursive removal takes out the transaction and what descends from it, each one once and as
it stood in the pool, and nothing else. -/
theorem removes_descendants (pool : CountedPool) (hl : Linked pool) (tx : CTransaction) :
    (∀ h e, (pool.remove tx true).2.mapTx.find h = some e ↔
      pool.mapTx.find h = some e ∧ ¬Descends pool.toCTxMemPool tx h) ∧
    (∀ h, h ∈ (pool.remove tx true).1.map CTransaction.getHash ↔
      Descends pool.toCTxMemPool tx h) ∧
    ((pool.remove tx true).1.map CTransaction.getHash).Nodup ∧
    (∀ t ∈ (pool.remove tx true).1, ∃ e, pool.mapTx.find t.getHash = some e ∧ e.tx = t) ∧
    Linked (pool.remove tx true).2 := by
  have hfollows := removal_follows true pool
  refine ⟨fun h e => hl.find_remove, fun h => hl.mem_removed, hfollows.nodup_sweep hl.self_part,
    hfollows.forall_sweep (fun hpart htake => ?_) hl.self_part, (hl.remove_part tx true).linked⟩
  obtain ⟨entry, hfind, rfl, -, -⟩ := CountedPool.takeTx_eq_some.mp htake
  refine ⟨entry, ?_, rfl⟩
  rw [hpart.linked.hash hfind]
  exact hpart.part hfind

end Remove

section Add

variable {pool : CountedPool} {hash : Uint256} {entry : CTxMemPoolEntry}

theorem find_marks_of_notMem {tx : CTransaction} {vin : List CTxIn} {k : ℕ}
    {next : Dict COutPoint (CTransaction × ℕ)} {p : COutPoint}
    (hp : p ∉ vin.map CTxIn.prevout) :
    ((vin.zipIdx k).foldl (fun next i => next.set i.1.prevout (tx, i.2)) next).find p =
      next.find p := by
  induction vin generalizing k next with
  | nil => rfl
  | cons txin vin ih =>
    rw [List.map_cons, List.mem_cons, not_or] at hp
    rw [List.zipIdx_cons, List.foldl_cons, ih hp.2, Dict.find_set, if_neg hp.1]

theorem find_marks {tx : CTransaction} {vin : List CTxIn} {k i : ℕ}
    {next : Dict COutPoint (CTransaction × ℕ)} {txin : CTxIn}
    (hnodup : (vin.map CTxIn.prevout).Nodup) (hi : vin[i]? = some txin) :
    ((vin.zipIdx k).foldl (fun next i => next.set i.1.prevout (tx, i.2)) next).find txin.prevout =
      some (tx, k + i) := by
  induction vin generalizing k i next with
  | nil => cases hi
  | cons txin' vin ih =>
    rw [List.map_cons, List.nodup_cons] at hnodup
    rw [List.zipIdx_cons, List.foldl_cons]
    cases i with
    | zero =>
      cases hi
      rw [find_marks_of_notMem hnodup.1, Dict.find_set, if_pos rfl, Nat.add_zero]
    | succ i =>
      rw [ih hnodup.2 hi, Nat.add_assoc, Nat.add_comm 1 i]

/-- A transaction comes to the pool that spends nothing that another one spends. -/
theorem Linked.addUnchecked (hl : Linked pool) (hhash : entry.tx.getHash = hash)
    (hnew : pool.mapTx.find hash = none)
    (hfree : ∀ p ∈ entry.tx.prevouts, pool.mapNextTx.find p = none)
    (hnodup : entry.tx.prevouts.Nodup) : Linked (pool.addUnchecked hash entry) where
  hash he := by
    rcases Dict.find_set_cases he with ⟨rfl, rfl⟩ | ⟨-, he⟩
    · exact hhash
    · exact hl.hash he
  marked {h e} he {i txin} hin := by
    rcases Dict.find_set_cases he with ⟨rfl, rfl⟩ | ⟨-, he⟩
    · exact (find_marks hnodup hin).trans (by rw [Nat.zero_add])
    · have hold := hl.marked he hin
      refine (find_marks_of_notMem fun hmem => ?_).trans hold
      rw [hfree _ hmem] at hold
      cases hold
  marks {p tx i} h := by
    by_cases hp : p ∈ entry.tx.prevouts
    · obtain ⟨txin, hin, rfl⟩ := List.mem_map.mp hp
      obtain ⟨j, hj⟩ := List.mem_iff_getElem?.mp hin
      have hmark : some (tx, i) = some (entry.tx, 0 + j) := h.symm.trans (find_marks hnodup hj)
      cases Option.some.inj hmark
      refine ⟨entry, txin, ?_, rfl, by rwa [Nat.zero_add], rfl⟩
      change (pool.mapTx.set hash entry).find _ = _
      rw [Dict.find_set, if_pos hhash]
    · have hold : pool.mapNextTx.find p = some (tx, i) := (find_marks_of_notMem hp).symm.trans h
      obtain ⟨e, txin, he, htx, hin, hprev⟩ := hl.marks hold
      refine ⟨e, txin, ?_, htx, hin, hprev⟩
      change (pool.mapTx.set hash entry).find _ = _
      rw [Dict.find_set, if_neg]
      · exact he
      · intro hsame
        rw [hsame, hnew] at he
        cases he
  total := by
    change pool.totalTxSize + _ = BitVec.ofInt 64 ((pool.mapTx.set hash entry).sum _)
    rw [Dict.sum_set_of_none hnew, BitVec.ofInt_add, hl.total, BitVec.ofInt_natCast]

end Add

def CountedPool.empty : CountedPool where
  mapTx := Dict.empty
  mapNextTx := Dict.empty
  mapDeltas _ := none
  totalTxSize := 0
  nTransactionsUpdated := 0

theorem linked_empty (pool : CountedPool) (htx : pool.mapTx = Dict.empty)
    (hnext : pool.mapNextTx = Dict.empty) (htotal : pool.totalTxSize = 0) : Linked pool where
  hash he := by
    rw [htx] at he
    cases he
  marked he := by
    rw [htx] at he
    cases he
  marks h := by
    rw [hnext] at h
    cases h
  total := by
    rw [htx, htotal]
    rfl

/-- A transaction, one that spends its output, and one that has nothing to do with them. -/
def samplePool : CountedPool :=
  let entry (tx : CTransaction) : CTxMemPoolEntry := ⟨tx, 0, 0, 0, 0⟩
  ((CountedPool.empty.addUnchecked 1 (entry (spendOf 1 ⟨9, 0⟩ [⟨coin, [], 0⟩]))).addUnchecked 2
    (entry (spendOf 2 ⟨1, 0⟩ [⟨coin, [], 0⟩]))).addUnchecked 3
    (entry (spendOf 3 ⟨9, 1⟩ [⟨coin, [], 0⟩]))

theorem samplePool_linked : Linked samplePool := by
  refine Linked.addUnchecked ?_ rfl rfl (by decide) (by decide)
  refine Linked.addUnchecked ?_ rfl rfl (by decide) (by decide)
  refine Linked.addUnchecked ?_ rfl rfl (by decide) (by decide)
  exact linked_empty CountedPool.empty rfl rfl rfl

theorem removes_descendants_sample :
    Descends samplePool.toCTxMemPool (spendOf 1 ⟨9, 0⟩ [⟨coin, [], 0⟩]) 2 ∧
    ∀ h, h ∈ (samplePool.remove (spendOf 1 ⟨9, 0⟩ [⟨coin, [], 0⟩]) true).1.map
        CTransaction.getHash ↔
      Descends samplePool.toCTxMemPool (spendOf 1 ⟨9, 0⟩ [⟨coin, [], 0⟩]) h := by
  refine ⟨.child (.self (e := ⟨spendOf 1 ⟨9, 0⟩ [⟨coin, [], 0⟩], 0, 0, 0, 0⟩) rfl)
    ⟨_, _, rfl, rfl, ⟨1, 0⟩, ?_, rfl, ?_⟩, (removes_descendants samplePool samplePool_linked _).2.1⟩
  · decide
  · decide

end Scrypta.Mempool
