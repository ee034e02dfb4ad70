import Mathlib.Data.BitVec
import Mathlib.Data.Finset.Basic
import Scrypta.BlocksInFlight
import Scrypta.CheckBlock
import Scrypta.Toolkit.Cursors

/-! Transactions whose parents are not known yet. The pool keeps them by their hashes, and for
each parent the hashes of those that spend it. -/

namespace Scrypta

open Download (NodeId)

structure COrphanTx where
  tx : CTransaction
  fromPeer : NodeId

structure OrphanPool where
  mapOrphanTransactions : Dict Uint256 COrphanTx := Dict.empty
  mapOrphanTransactionsByPrev : Dict Uint256 (Finset Uint256) := Dict.empty

namespace OrphanPool

def insertByPrev (hash : Uint256) (byPrev : Dict Uint256 (Finset Uint256)) (txin : CTxIn) :
    Dict Uint256 (Finset Uint256) :=
  byPrev.set txin.prevout.hash (insert hash ((byPrev.find txin.prevout.hash).getD ∅))

/-- The answer says whether the transaction was stored. -/
def addOrphanTx (tx : CTransaction) (peer : NodeId) (pool : OrphanPool) : OrphanPool × Bool :=
  let hash := tx.getHash
  if pool.mapOrphanTransactions.count hash then (pool, false)
  else if 5000 < tx.getSerializeSize % 2 ^ 32 then (pool, false)
  else
    ({ mapOrphanTransactions := pool.mapOrphanTransactions.set hash ⟨tx, peer⟩
       mapOrphanTransactionsByPrev :=
        tx.vin.foldl (insertByPrev hash) pool.mapOrphanTransactionsByPrev }, true)

def eraseByPrev (hash : Uint256) (byPrev : Dict Uint256 (Finset Uint256)) (txin : CTxIn) :
    Dict Uint256 (Finset Uint256) :=
  match byPrev.find txin.prevout.hash with
  | none => byPrev
  | some itPrev =>
    if itPrev.erase hash = ∅ then byPrev.erase txin.prevout.hash
    else byPrev.set txin.prevout.hash (itPrev.erase hash)

def eraseOrphanTx (hash : Uint256) (pool : OrphanPool) : OrphanPool :=
  match pool.mapOrphanTransactions.find hash with
  | none => pool
  | some it =>
    { mapOrphanTransactions := pool.mapOrphanTransactions.erase hash
      mapOrphanTransactionsByPrev :=
        it.tx.vin.foldl (eraseByPrev hash) pool.mapOrphanTransactionsByPrev }

def eraseIfFrom (peer : NodeId) (_key : Uint256) (maybeErase : COrphanTx) (pool : OrphanPool) :
    OrphanPool :=
  if maybeErase.fromPeer = peer then pool.eraseOrphanTx maybeErase.tx.getHash else pool

/-- The map is left with no entry of the peer; `none` is an iterator at an entry that is gone, or
more steps than the map has entries. -/
def eraseOrphansFor (peer : NodeId) (pool : OrphanPool) : Option OrphanPool :=
  Dict.sweep BitVec.toNat mapOrphanTransactions (eraseIfFrom peer)
    pool.mapOrphanTransactions.size (pool.mapOrphanTransactions.first BitVec.toNat) pool

/-- The entry at `lower_bound`, or else the first one; an empty map has neither. -/
def victim (randomhash : Uint256) (m : Dict Uint256 COrphanTx) : Option Uint256 :=
  match m.lowerBound BitVec.toNat randomhash with
  | some it => some it
  | none => m.first BitVec.toNat

/-- The loop of `LimitOrphanTxSize` for at most `turns` evictions, with the hashes that are
drawn. -/
def limitLoop (nMaxOrphans : BitVec 32) :
    ℕ → (ℕ → Uint256) → BitVec 32 → OrphanPool → Option (OrphanPool × BitVec 32)
  | turns, rand, nEvicted, pool =>
    if nMaxOrphans.toNat < pool.mapOrphanTransactions.size then
      match turns with
      | 0 => none
      | turns + 1 =>
        match victim (rand 0) pool.mapOrphanTransactions with
        | none => none
        | some it =>
          limitLoop nMaxOrphans turns (fun i => rand (i + 1)) (nEvicted + 1)
            (pool.eraseOrphanTx it)
    else some (pool, nEvicted)

def limitOrphanTxSize (nMaxOrphans : BitVec 32) (rand : ℕ → Uint256) (pool : OrphanPool) :
    Option (OrphanPool × BitVec 32) :=
  limitLoop nMaxOrphans pool.mapOrphanTransactions.size rand 0 pool

inductive Call where
  | addOrphanTx (tx : CTransaction) (peer : NodeId)
  | eraseOrphanTx (hash : Uint256)
  | eraseOrphansFor (peer : NodeId)
  | limitOrphanTxSize (nMaxOrphans : BitVec 32) (rand : ℕ → Uint256)

def step (pool : OrphanPool) : Call → Option OrphanPool
  | .addOrphanTx tx peer => some (pool.addOrphanTx tx peer).1
  | .eraseOrphanTx hash => some (pool.eraseOrphanTx hash)
  | .eraseOrphansFor peer => pool.eraseOrphansFor peer
  | .limitOrphanTxSize nMaxOrphans rand => (pool.limitOrphanTxSize nMaxOrphans rand).map Prod.fst

/-- The transaction spends an output of `prev`. -/
def Spends (tx : CTransaction) (prev : Uint256) : Prop := ∃ txin ∈ tx.vin, txin.prevout.hash = prev

/-- The second map is the first one read from the parents. -/
structure Mirrors (pool : OrphanPool) : Prop where
  keyed : ∀ hash it, pool.mapOrphanTransactions.find hash = some it → it.tx.getHash = hash
  spent : ∀ prev hash,
    (∃ hashes, pool.mapOrphanTransactionsByPrev.find prev = some hashes ∧ hash ∈ hashes) ↔
      ∃ it, pool.mapOrphanTransactions.find hash = some it ∧ Spends it.tx prev
  nonempty : ∀ prev hashes, pool.mapOrphanTransactionsByPrev.find prev = some hashes → hashes ≠ ∅

/-! The map by parents, through the sets that it gives. -/

section ByPrev

variable {byPrev : Dict Uint256 (Finset Uint256)}

def Dense (byPrev : Dict Uint256 (Finset Uint256)) : Prop :=
  ∀ prev hashes, byPrev.find prev = some hashes → hashes ≠ ∅

def spenders (byPrev : Dict Uint256 (Finset Uint256)) (prev : Uint256) : Finset Uint256 :=
  (byPrev.find prev).getD ∅

theorem mem_spenders {hash prev : Uint256} :
    hash ∈ spenders byPrev prev ↔ ∃ hashes, byPrev.find prev = some hashes ∧ hash ∈ hashes := by
  unfold spenders
  cases byPrev.find prev <;> simp

theorem insertByPrev_spec (h : Dense byPrev) (hash : Uint256) (txin : CTxIn) :
    Dense (insertByPrev hash byPrev txin) ∧
      ∀ prev, spenders (insertByPrev hash byPrev txin) prev =
        if txin.prevout.hash = prev then insert hash (spenders byPrev prev)
        else spenders byPrev prev := by
  refine ⟨fun prev hashes hfind => ?_, fun prev => ?_⟩
  · rcases Dict.find_set_cases hfind with ⟨-, rfl⟩ | ⟨-, hfind⟩
    · exact Finset.insert_ne_empty _ _
    · exact h prev hashes hfind
  · rw [spenders, insertByPrev, Dict.find_set]
    by_cases hprev : prev = txin.prevout.hash
    · subst hprev
      rw [if_pos rfl, if_pos rfl, Option.getD_some, spenders]
    · rw [if_neg hprev, if_neg (Ne.symm hprev), spenders]

theorem eraseByPrev_spec (h : Dense byPrev) (hash : Uint256) (txin : CTxIn) :
    Dense (eraseByPrev hash byPrev txin) ∧
      ∀ prev, spenders (eraseByPrev hash byPrev txin) prev =
        if txin.prevout.hash = prev then (spenders byPrev prev).erase hash
        else spenders byPrev prev := by
  unfold eraseByPrev
  cases hfind : byPrev.find txin.prevout.hash with
  | none =>
    refine ⟨h, fun prev => ?_⟩
    dsimp only
    split
    · next hprev =>
      subst hprev
      rw [spenders, hfind]
      rfl
    · rfl
  | some itPrev =>
    dsimp only
    by_cases hempty : itPrev.erase hash = ∅
    · rw [if_pos hempty]
      refine ⟨fun prev hashes hprev => ?_, fun prev => ?_⟩
      · rw [Dict.find_erase] at hprev
        split at hprev
        · cases hprev
        · exact h prev hashes hprev
      · rw [spenders, Dict.find_erase]
        by_cases hprev : prev = txin.prevout.hash
        · subst hprev
          rw [if_pos rfl, if_pos rfl, spenders, hfind]
          exact hempty.symm
        · rw [if_neg hprev, if_neg (Ne.symm hprev), spenders]
    · rw [if_neg hempty]
      refine ⟨fun prev hashes hprev => ?_, fun prev => ?_⟩
      · rcases Dict.find_set_cases hprev with ⟨-, rfl⟩ | ⟨-, hprev⟩
        · exact hempty
        · exact h prev hashes hprev
      · rw [spenders, Dict.find_set]
        by_cases hprev : prev = txin.prevout.hash
        · subst hprev
          rw [if_pos rfl, if_pos rfl, spenders, hfind]
          rfl
        · rw [if_neg hprev, if_neg (Ne.symm hprev), spenders]

theorem mem_foldl_insertByPrev (h : Dense byPrev) (hash : Uint256) (vin : List CTxIn) :
    Dense (vin.foldl (insertByPrev hash) byPrev) ∧
      ∀ prev t, t ∈ spenders (vin.foldl (insertByPrev hash) byPrev) prev ↔
        t ∈ spenders byPrev prev ∨ t = hash ∧ ∃ txin ∈ vin, txin.prevout.hash = prev := by
  induction vin generalizing byPrev with
  | nil => exact ⟨h, fun prev t => by simp⟩
  | cons txin vin ih =>
    obtain ⟨hdense, hstep⟩ := insertByPrev_spec h hash txin
    obtain ⟨hdense', hmem⟩ := ih hdense
    refine ⟨hdense', fun prev t => ?_⟩
    rw [List.foldl_cons, hmem, hstep, List.exists_mem_cons_iff]
    split
    · rw [Finset.mem_insert]
      tauto
    · next hprev => rw [eq_false hprev, false_or]

theorem mem_foldl_eraseByPrev (h : Dense byPrev) (hash : Uint256) (vin : List CTxIn) :
    Dense (vin.foldl (eraseByPrev hash) byPrev) ∧
      ∀ prev t, t ∈ spenders (vin.foldl (eraseByPrev hash) byPrev) prev ↔
        t ∈ spenders byPrev prev ∧ ¬(t = hash ∧ ∃ txin ∈ vin, txin.prevout.hash = prev) := by
  induction vin generalizing byPrev with
  | nil => exact ⟨h, fun prev t => by simp⟩
  | cons txin vin ih =>
    obtain ⟨hdense, hstep⟩ := eraseByPrev_spec h hash txin
    obtain ⟨hdense', hmem⟩ := ih hdense
    refine ⟨hdense', fun prev t => ?_⟩
    rw [List.foldl_cons, hmem, hstep, List.exists_mem_cons_iff]
    split
    · rw [Finset.mem_erase]
      tauto
    · next hprev => rw [eq_false hprev, false_or]

end ByPrev

variable {pool : OrphanPool}

theorem mirrors_iff : pool.Mirrors ↔
    (∀ hash it, pool.mapOrphanTransactions.find hash = some it → it.tx.getHash = hash) ∧
      Dense pool.mapOrphanTransactionsByPrev ∧
      ∀ prev hash, hash ∈ spenders pool.mapOrphanTransactionsByPrev prev ↔
        ∃ it, pool.mapOrphanTransactions.find hash = some it ∧ Spends it.tx prev := by
  constructor
  · intro h
    exact ⟨h.keyed, h.nonempty, fun prev hash => mem_spenders.trans (h.spent prev hash)⟩
  · rintro ⟨hkeyed, hdense, hspent⟩
    exact ⟨hkeyed, fun prev hash => mem_spenders.symm.trans (hspent prev hash), hdense⟩

theorem mirrors_empty : Mirrors {} := by
  refine ⟨fun hash it h => ?_, fun prev hash => ?_, fun prev hashes h => ?_⟩
  · rw [Dict.find_empty] at h
    cases h
  · simp [Dict.find_empty]
  · rw [Dict.find_empty] at h
    cases h

theorem addOrphanTx_mirrors (h : pool.Mirrors) (tx : CTransaction) (peer : NodeId) :
    (pool.addOrphanTx tx peer).1.Mirrors := by
  obtain ⟨hkeyed, hdense, hspent⟩ := mirrors_iff.1 h
  unfold addOrphanTx
  dsimp only
  split_ifs with hcount hbig
  · exact h
  · exact h
  · have hnew : pool.mapOrphanTransactions.find tx.getHash = none :=
      Dict.count_eq_false.1 (Bool.eq_false_iff.2 hcount)
    obtain ⟨hdense', hmem⟩ := mem_foldl_insertByPrev hdense tx.getHash tx.vin
    refine mirrors_iff.2 ⟨fun hash it hfind => ?_, hdense', fun prev hash => ?_⟩
    · rcases Dict.find_set_cases hfind with ⟨rfl, rfl⟩ | ⟨-, hfind⟩
      · rfl
      · exact hkeyed hash it hfind
    · rw [hmem, hspent, Dict.find_set]
      by_cases hhash : hash = tx.getHash
      · subst hhash
        rw [if_pos rfl, hnew]
        simp [Spends]
      · rw [if_neg hhash, eq_false hhash, false_and, or_false]

theorem find_eraseOrphanTx (pool : OrphanPool) (hash hash' : Uint256) :
    (pool.eraseOrphanTx hash).mapOrphanTransactions.find hash' =
      if hash' = hash then none else pool.mapOrphanTransactions.find hash' := by
  unfold eraseOrphanTx
  cases hfind : pool.mapOrphanTransactions.find hash with
  | none =>
    dsimp only
    split
    · next hhash => rw [hhash, hfind]
    · rfl
  | some it => exact Dict.find_erase _ _ _

theorem eraseOrphanTx_mirrors (h : pool.Mirrors) (hash : Uint256) :
    (pool.eraseOrphanTx hash).Mirrors := by
  obtain ⟨hkeyed, hdense, hspent⟩ := mirrors_iff.1 h
  cases hfind : pool.mapOrphanTransactions.find hash with
  | none =>
    rw [eraseOrphanTx, hfind]
    exact h
  | some it =>
    obtain ⟨hdense', hmem⟩ := mem_foldl_eraseByPrev hdense hash it.tx.vin
    have hbyPrev : (pool.eraseOrphanTx hash).mapOrphanTransactionsByPrev =
        it.tx.vin.foldl (eraseByPrev hash) pool.mapOrphanTransactionsByPrev := by
      rw [eraseOrphanTx, hfind]
    refine mirrors_iff.2 ⟨fun hash' it' hfind' => ?_, ?_, fun prev hash' => ?_⟩
    · rw [find_eraseOrphanTx] at hfind'
      split at hfind'
      · cases hfind'
      · exact hkeyed hash' it' hfind'
    · rw [hbyPrev]
      exact hdense'
    · rw [hbyPrev, hmem, hspent, find_eraseOrphanTx]
      by_cases hhash : hash' = hash
      · subst hhash
        rw [if_pos rfl, hfind]
        simp [Spends]
      · rw [if_neg hhash, eq_false hhash, false_and, not_false_eq_true, and_true]

theorem size_eraseOrphanTx {hash : Uint256} {it : COrphanTx}
    (h : pool.mapOrphanTransactions.find hash = some it) :
    (pool.eraseOrphanTx hash).mapOrphanTransactions.size + 1 =
      pool.mapOrphanTransactions.size := by
  rw [eraseOrphanTx, h]
  exact Dict.size_erase h

/-- The entry is found under the hash of its transaction, so no other entry goes with it. -/
theorem eraseIfFrom_spec (peer : NodeId) {key : Uint256} {it : COrphanTx} (h : pool.Mirrors)
    (hfind : pool.mapOrphanTransactions.find key = some it) :
    (eraseIfFrom peer key it pool).Mirrors ∧
      ∀ hash, (eraseIfFrom peer key it pool).mapOrphanTransactions.find hash =
        if hash = key ∧ it.fromPeer = peer then none
        else pool.mapOrphanTransactions.find hash := by
  unfold eraseIfFrom
  split
  · next hpeer =>
    rw [h.keyed key it hfind]
    refine ⟨eraseOrphanTx_mirrors h key, fun hash => ?_⟩
    rw [find_eraseOrphanTx]
    simp only [hpeer, and_true]
  · next hpeer =>
    refine ⟨h, fun hash => ?_⟩
    rw [if_neg fun hboth => hpeer hboth.2]

theorem foldl_eraseIfFrom (peer : NodeId) {l : List (Uint256 × COrphanTx)} (h : pool.Mirrors)
    (hl : l.Pairwise fun a b => a.1.toNat < b.1.toNat)
    (hmem : ∀ e ∈ l, pool.mapOrphanTransactions.find e.1 = some e.2) :
    (l.foldl (fun s e => eraseIfFrom peer e.1 e.2 s) pool).Mirrors ∧
      ∀ hash, (l.foldl (fun s e => eraseIfFrom peer e.1 e.2 s) pool).mapOrphanTransactions.find
          hash =
        if ∃ e ∈ l, e.1 = hash ∧ e.2.fromPeer = peer then none
        else pool.mapOrphanTransactions.find hash := by
  induction l generalizing pool with
  | nil => exact ⟨h, fun hash => by simp⟩
  | cons e l ih =>
    obtain ⟨hbefore, hl⟩ := List.pairwise_cons.1 hl
    obtain ⟨hnext, hfind⟩ := eraseIfFrom_spec peer h (hmem e List.mem_cons_self)
    have hlater : ∀ e' ∈ l, (eraseIfFrom peer e.1 e.2 pool).mapOrphanTransactions.find e'.1 =
        some e'.2 := by
      intro e' he'
      rw [hfind, if_neg, hmem e' (List.mem_cons_of_mem _ he')]
      rintro ⟨heq, -⟩
      have hlt := hbefore e' he'
      rw [heq] at hlt
      exact lt_irrefl _ hlt
    obtain ⟨hmirrors, hall⟩ := ih hnext hl hlater
    refine ⟨hmirrors, fun hash => ?_⟩
    rw [List.foldl_cons, hall, hfind]
    simp only [List.exists_mem_cons_iff]
    by_cases hrest : ∃ e ∈ l, e.1 = hash ∧ e.2.fromPeer = peer
    · rw [if_pos hrest, if_pos (Or.inr hrest)]
    · rw [if_neg hrest]
      by_cases hhere : hash = e.1 ∧ e.2.fromPeer = peer
      · rw [if_pos hhere, if_pos (Or.inl ⟨hhere.1.symm, hhere.2⟩)]
      · rw [if_neg hhere, if_neg]
        rintro (⟨heq, hpeer⟩ | hin)
        · exact hhere ⟨heq.symm, hpeer⟩
        · exact hrest hin

/-- The iteration is never at an entry that was erased, and takes all those of the peer. -/
theorem eraseOrphansFor_spec (h : pool.Mirrors) (peer : NodeId) :
    ∃ pool', pool.eraseOrphansFor peer = some pool' ∧ pool'.Mirrors ∧
      ∀ hash, pool'.mapOrphanTransactions.find hash =
        (pool.mapOrphanTransactions.find hash).filter fun it => it.fromPeer ≠ peer := by
  have hbody : ∀ key it s, Mirrors s → s.mapOrphanTransactions.find key = some it →
      (eraseIfFrom peer key it s).Mirrors ∧ ∀ hash, hash ≠ key →
        (eraseIfFrom peer key it s).mapOrphanTransactions.find hash =
          s.mapOrphanTransactions.find hash := by
    intro key it s hs hfind
    obtain ⟨hnext, hframe⟩ := eraseIfFrom_spec peer hs hfind
    refine ⟨hnext, fun hash hne => ?_⟩
    rw [hframe, if_neg fun hboth => hne hboth.1]
  have hsweep := Dict.sweep_first BitVec.toNat_injective hbody h
  obtain ⟨hmirrors, hfind⟩ := foldl_eraseIfFrom peer h
    (Dict.inOrder_pairwise BitVec.toNat_injective pool.mapOrphanTransactions)
    fun e he => Dict.mem_inOrder.1 he
  refine ⟨_, hsweep, hmirrors, fun hash => ?_⟩
  rw [hfind]
  cases hit : pool.mapOrphanTransactions.find hash with
  | none => simp
  | some it =>
    by_cases hpeer : it.fromPeer = peer
    · rw [if_pos ⟨(hash, it), Dict.mem_inOrder.2 hit, rfl, hpeer⟩]
      simp [Option.filter, hpeer]
    · rw [if_neg]
      · simp [Option.filter, hpeer]
      · rintro ⟨e, he, rfl, hfrom⟩
        rw [Dict.mem_inOrder.1 he, Option.some_inj] at hit
        exact hpeer (hit ▸ hfrom)

theorem exists_victim (randomhash : Uint256) {m : Dict Uint256 COrphanTx} (h : 0 < m.size) :
    ∃ hash it, victim randomhash m = some hash ∧ m.find hash = some it := by
  unfold victim
  cases hbound : m.lowerBound BitVec.toNat randomhash with
  | some hash =>
    obtain ⟨it, hit⟩ := Dict.exists_of_lowerBound hbound
    exact ⟨hash, it, rfl, hit⟩
  | none =>
    obtain ⟨hash, hfirst⟩ := Dict.first_isSome BitVec.toNat h
    obtain ⟨it, hit⟩ := Dict.exists_of_first hfirst
    exact ⟨hash, it, hfirst, hit⟩

theorem limitLoop_spec {nMaxOrphans : BitVec 32} {turns : ℕ} (rand : ℕ → Uint256)
    (nEvicted : BitVec 32) (h : pool.Mirrors)
    (hturns : pool.mapOrphanTransactions.size ≤ turns + nMaxOrphans.toNat) :
    ∃ pool' evicted, limitLoop nMaxOrphans turns rand nEvicted pool = some (pool', evicted) ∧
      pool'.Mirrors ∧
      pool'.mapOrphanTransactions.size =
        min pool.mapOrphanTransactions.size nMaxOrphans.toNat ∧
      ∀ hash it, pool'.mapOrphanTransactions.find hash = some it →
        pool.mapOrphanTransactions.find hash = some it := by
  induction turns generalizing pool nEvicted rand with
  | zero =>
    rw [limitLoop, if_neg (by omega)]
    exact ⟨pool, nEvicted, rfl, h, by omega, fun _ _ hit => hit⟩
  | succ turns ih =>
    rw [limitLoop]
    by_cases hmore : nMaxOrphans.toNat < pool.mapOrphanTransactions.size
    · obtain ⟨hash, it, hvictim, hit⟩ := exists_victim (rand 0) (Nat.zero_lt_of_lt hmore)
      have hsize := size_eraseOrphanTx hit
      obtain ⟨pool', evicted, hloop, hmirrors, hleft, hsub⟩ :=
        ih (fun i => rand (i + 1)) (nEvicted + 1) (eraseOrphanTx_mirrors h hash) (by omega)
      rw [if_pos hmore, hvictim]
      refine ⟨pool', evicted, hloop, hmirrors, by omega, fun hash' it' hfind => ?_⟩
      have hbefore := hsub hash' it' hfind
      rw [find_eraseOrphanTx] at hbefore
      split at hbefore
      · cases hbefore
      · exact hbefore
    · rw [if_neg hmore]
      exact ⟨pool, nEvicted, rfl, h, by omega, fun _ _ hit => hit⟩

/-- Every call returns, and leaves the two maps mirroring each other. -/
theorem step_mirrors (h : pool.Mirrors) (call : Call) :
    ∃ pool', pool.step call = some pool' ∧ pool'.Mirrors := by
  cases call with
  | addOrphanTx tx peer => exact ⟨_, rfl, addOrphanTx_mirrors h tx peer⟩
  | eraseOrphanTx hash => exact ⟨_, rfl, eraseOrphanTx_mirrors h hash⟩
  | eraseOrphansFor peer =>
    obtain ⟨pool', hcall, hmirrors, -⟩ := eraseOrphansFor_spec h peer
    exact ⟨pool', hcall, hmirrors⟩
  | limitOrphanTxSize nMaxOrphans rand =>
    obtain ⟨pool', evicted, hloop, hmirrors, -⟩ :=
      limitLoop_spec rand 0 h (Nat.le_add_right _ nMaxOrphans.toNat)
    refine ⟨pool', ?_, hmirrors⟩
    rw [step, limitOrphanTxSize, hloop]
    rfl

theorem run_mirrors (h : pool.Mirrors) (calls : List Call) :
    ∃ pool', calls.foldlM step pool = some pool' ∧ pool'.Mirrors := by
  induction calls generalizing pool with
  | nil => exact ⟨pool, rfl, h⟩
  | cons call calls ih =>
    obtain ⟨next, hstep, hnext⟩ := step_mirrors h call
    obtain ⟨pool', hrun, hmirrors⟩ := ih hnext
    refine ⟨pool', ?_, hmirrors⟩
    rw [List.foldlM_cons, hstep]
    exact hrun

/-- After any calls the maps mirror each other; a peer's orphans go and no others, and a limit is
kept. -/
theorem orphan_pool_mirrored (calls : List Call) :
    ∃ pool, calls.foldlM step {} = some pool ∧ pool.Mirrors ∧
      (∀ peer, ∃ pool', pool.eraseOrphansFor peer = some pool' ∧
        ∀ hash, pool'.mapOrphanTransactions.find hash =
          (pool.mapOrphanTransactions.find hash).filter fun it => it.fromPeer ≠ peer) ∧
      ∀ nMaxOrphans rand, ∃ pool' nEvicted,
        pool.limitOrphanTxSize nMaxOrphans rand = some (pool', nEvicted) ∧
          pool'.mapOrphanTransactions.size =
            min pool.mapOrphanTransactions.size nMaxOrphans.toNat ∧
          ∀ hash it, pool'.mapOrphanTransactions.find hash = some it →
            pool.mapOrphanTransactions.find hash = some it := by
  obtain ⟨pool, hrun, hmirrors⟩ := run_mirrors mirrors_empty calls
  refine ⟨pool, hrun, hmirrors, fun peer => ?_, fun nMaxOrphans rand => ?_⟩
  · obtain ⟨pool', hcall, -, hfind⟩ := eraseOrphansFor_spec hmirrors peer
    exact ⟨pool', hcall, hfind⟩
  · obtain ⟨pool', evicted, hloop, -, hsize, hsub⟩ :=
      limitLoop_spec rand 0 hmirrors (Nat.le_add_right _ nMaxOrphans.toNat)
    exact ⟨pool', evicted, hloop, hsize, hsub⟩

end OrphanPool

end Scrypta
