import Scrypta.Ledger
import Scrypta.Toolkit.Runs

/-! The cache of coins. A cache keeps entries of the view below it, each with what it knows of
that view: a dirty entry may differ from it, and of a fresh one that view has nothing. Caches
are stacked over a base view; the stack answers like one plain map, which is what the flat view
of the ledger stands for. -/

namespace Scrypta
namespace CoinsCache

structure CCoinsCacheEntry where
  coins : CCoins := {}
  dirty : Bool := false
  fresh : Bool := false
  deriving DecidableEq, Repr

abbrev CCoinsMap := Dict Uint256 CCoinsCacheEntry

/-- Coins of which nothing is unspent count as absent. -/
def present (coins : Option CCoins) : Option CCoins := coins.filter fun c => !c.isPruned

/-- What a base view offers; reading may change its state, not what it holds. -/
structure CCoinsView (β : Type) where
  getCoins : β → Uint256 → Option CCoins × β
  getBestBlock : β → Uint256
  batchWrite : β → CCoinsMap → Uint256 → β

/-- A base view together with what it holds. It may return coins of which nothing is unspent,
without outputs, or nothing in their place. -/
structure BaseView (β : Type) extends CCoinsView β where
  content : β → Uint256 → Option CCoins
  present_getCoins : ∀ base txid, present (getCoins base txid).1 = content base txid
  bare_getCoins : ∀ base txid coins, (getCoins base txid).1 = some coins →
    coins.isPruned = true → coins.vout = []
  content_getCoins : ∀ base txid, content (getCoins base txid).2 = content base
  getBestBlock_getCoins : ∀ base txid, getBestBlock (getCoins base txid).2 = getBestBlock base
  content_batchWrite : ∀ base mapCoins hashBlock,
    (∀ txid entry, mapCoins.find txid = some entry →
      (entry.dirty = true → entry.coins.cleanup = entry.coins) ∧
      (entry.dirty = false → present (some entry.coins) = content base txid)) →
    ∀ txid, content (batchWrite base mapCoins hashBlock) txid =
      match mapCoins.find txid with
      | some entry => present (some entry.coins)
      | none => content base txid
  getBestBlock_batchWrite : ∀ base mapCoins hashBlock,
    (hashBlock = 0 → getBestBlock base = 0) →
    getBestBlock (batchWrite base mapCoins hashBlock) = hashBlock

/-- The members of `CCoinsViewCache`; a new cache is empty. -/
structure Layer where
  hashBlock : Uint256 := 0
  cacheCoins : CCoinsMap := Dict.empty

def Layer.put (cache : Layer) (txid : Uint256) (entry : CCoinsCacheEntry) : Layer :=
  { cache with cacheCoins := cache.cacheCoins.set txid entry }

def Layer.erase (cache : Layer) (txid : Uint256) : Layer :=
  { cache with cacheCoins := cache.cacheCoins.erase txid }

section Model

variable {β : Type} (V : CCoinsView β)

/-- `GetCoins` of the view whose caches are listed, the uppermost first; what `FetchCoins` finds
below is put into every cache on the way. -/
def getCoins (txid : Uint256) : List Layer → β → Option CCoins × List Layer × β
  | [], base => ((V.getCoins base txid).1, [], (V.getCoins base txid).2)
  | cache :: below, base =>
    match cache.cacheCoins.find txid with
    | some entry => (some entry.coins, cache :: below, base)
    | none =>
      match getCoins txid below base with
      | (none, below, base) => (none, cache :: below, base)
      | (some coins, below, base) =>
        -- an entry with nothing unspent below can be considered fresh
        (some coins, cache.put txid ⟨coins, false, coins.isPruned⟩ :: below, base)

def getBestBlock : List Layer → β → Uint256 × List Layer
  | [], base => (V.getBestBlock base, [])
  | cache :: below, base =>
    if cache.hashBlock = 0 then
      match getBestBlock below base with
      | (hash, below) => (hash, { cache with hashBlock := hash } :: below)
    else (cache.hashBlock, cache :: below)

/-- The entry that `ModifyCoins` hands out, with the views below the cache. -/
def openEntry (txid : Uint256) (cache : Layer) (below : List Layer) (base : β) :
    CCoinsCacheEntry × List Layer × β :=
  match cache.cacheCoins.find txid with
  | some entry => ({ entry with dirty := true }, below, base)
  | none =>
    match getCoins V txid below base with
    | (none, below, base) => (⟨CCoins.empty, true, true⟩, below, base)
    | (some coins, below, base) => (⟨coins, true, coins.isPruned⟩, below, base)

/-- The end of a `CCoinsModifier` whose entry has been left with the coins. -/
def closeEntry (txid : Uint256) (cache : Layer) (entry : CCoinsCacheEntry) (coins : CCoins) :
    Layer :=
  if entry.fresh && coins.cleanup.isPruned then cache.erase txid
  else cache.put txid { entry with coins := coins.cleanup }

/-- One round of `BatchWrite`; nothing when its assertion fails. -/
def writeEntry (cacheCoins : CCoinsMap) (e : Uint256 × CCoinsCacheEntry) : Option CCoinsMap :=
  if e.2.dirty then
    match cacheCoins.find e.1 with
    | none =>
      if e.2.coins.isPruned then some cacheCoins
      else if e.2.fresh then some (cacheCoins.set e.1 ⟨e.2.coins, true, true⟩)
      else none
    | some us =>
      if us.fresh && e.2.coins.isPruned then some (cacheCoins.erase e.1)
      else some (cacheCoins.set e.1 { us with coins := e.2.coins, dirty := true })
  else some cacheCoins

def batchWrite (cache : Layer) (mapCoins : CCoinsMap) (hashBlock : Uint256) : Option Layer :=
  (mapCoins.toList.foldlM writeEntry cache.cacheCoins).map fun cacheCoins =>
    ⟨hashBlock, cacheCoins⟩

/-- `Flush` of the uppermost cache; the views that are left when it is removed. -/
def flush (cache : Layer) : List Layer → β → Option (List Layer × β)
  | [], base => some ([], V.batchWrite base cache.cacheCoins cache.hashBlock)
  | parent :: below, base =>
    (batchWrite parent cache.cacheCoins cache.hashBlock).map fun parent => (parent :: below, base)

/-- A use of the uppermost cache, or a change of the stack. -/
inductive Op
  | getCoins (txid : Uint256)
  | accessCoins (txid : Uint256)
  | haveCoins (txid : Uint256)
  | modifyCoins (txid : Uint256) (change : CCoins → CCoins)
  | getBestBlock
  | setBestBlock (hash : Uint256)
  | push
  | flush

/-- What the user of the stack sees or does: the coins returned, or those handed out and those
left in their place. -/
inductive Event
  | read (txid : Uint256) (coins : Option CCoins)
  | had (txid : Uint256) (answer : Bool)
  | modified (txid : Uint256) (before after : CCoins)

structure Stack (β : Type) where
  layers : List Layer
  base : β
  trace : List Event := []
  asserted : Bool := false

namespace Stack

def readCoins (s : Stack β) (txid : Uint256) (event : Option CCoins → Event) : Stack β :=
  match getCoins V txid s.layers s.base with
  | (coins, layers, base) =>
    { s with layers := layers, base := base, trace := s.trace ++ [event coins] }

def step (s : Stack β) : Op → Stack β
  | .getCoins txid => s.readCoins V txid (.read txid)
  | .accessCoins txid => s.readCoins V txid (.read txid)
  | .haveCoins txid => s.readCoins V txid fun coins =>
      .had txid (coins.any fun c => !c.vout.isEmpty)
  | .modifyCoins txid change =>
    match s.layers with
    | [] => s
    | cache :: below =>
      match openEntry V txid cache below s.base with
      | (entry, below, base) =>
        { s with
          layers := closeEntry txid cache entry (change entry.coins) :: below
          base := base
          trace := s.trace ++ [.modified txid entry.coins (change entry.coins)] }
  | .getBestBlock => { s with layers := (getBestBlock V s.layers s.base).2 }
  | .setBestBlock hash =>
    match s.layers with
    | [] => s
    | cache :: below => { s with layers := { cache with hashBlock := hash } :: below }
  | .push => { s with layers := {} :: s.layers }
  | .flush =>
    match s.layers with
    | [] => s
    | cache :: below =>
      match flush V cache below s.base with
      | some (layers, base) => { s with layers := layers, base := base }
      | none => { s with asserted := true }

/-- The uppermost cache knows its best block: it has been set, or read from below. -/
def Settled (s : Stack β) : Prop :=
  ∀ cache ∈ s.layers.head?, cache.hashBlock = (CoinsCache.getBestBlock V s.layers s.base).1

/-- There is a cache to use, and one that is flushed knows its best block. -/
def Ready (s : Stack β) : Op → Prop
  | .push => True
  | .flush => s.layers.isEmpty = false ∧ s.Settled V
  | _ => s.layers.isEmpty = false

instance (s : Stack β) : Decidable (s.Settled V) :=
  inferInstanceAs (Decidable (∀ cache ∈ s.layers.head?, _ = _))

instance (s : Stack β) (op : Op) : Decidable (s.Ready V op) := by
  cases op <;> unfold Ready <;> infer_instance

end Stack

theorem getBestBlock_again (layers : List Layer) (base : β) :
    (getBestBlock V (getBestBlock V layers base).2 base).1 = (getBestBlock V layers base).1 := by
  induction layers with
  | nil => rfl
  | cons cache below ih =>
    by_cases hzero : cache.hashBlock = 0
    · simp only [getBestBlock, hzero, if_true]
      split
      · exact ih
      · rfl
    · simp only [getBestBlock, hzero, if_false]

end Model

/-! What the caches know of each other. -/

theorem present_eq_none {coins : Option CCoins} :
    present coins = none ↔ ∀ c, coins = some c → c.isPruned = true := by
  cases coins with
  | none => simp [present]
  | some c => cases h : c.isPruned <;> simp [present, Option.filter, h]

theorem present_some_of_isPruned {c : CCoins} (h : c.isPruned = true) : present (some c) = none :=
  present_eq_none.mpr fun _ heq => Option.some.inj heq ▸ h

@[simp] theorem present_none : present none = none := rfl

theorem bare_of_cleanup {c : CCoins} (hc : c.cleanup = c) (h : c.isPruned = true) :
    c.vout = [] := by
  have hnull : ∀ o ∈ c.vout, o.isNull = true := List.all_eq_true.mp h
  rw [← hc]
  exact List.rdropWhile_eq_nil_iff.mpr hnull

theorem cleanup_cleanup (c : CCoins) : c.cleanup.cleanup = c.cleanup := by
  simp only [CCoins.cleanup, List.rdropWhile_idempotent]

section Content

variable {β : Type} (V : BaseView β)

/-- What a view holds: the entry of the uppermost cache that has one. -/
def content : List Layer → β → Uint256 → Option CCoins
  | [], base, txid => V.content base txid
  | cache :: below, base, txid =>
    match cache.cacheCoins.find txid with
    | some entry => present (some entry.coins)
    | none => content below base txid

/-- The uppermost cache has an entry; of a base view nothing is asked. -/
def Known (txid : Uint256) : List Layer → Prop
  | [] => True
  | cache :: _ => cache.cacheCoins.count txid = true

/-- What the flags of an entry say of the view below. -/
structure EntryOk (below : List Layer) (base : β) (txid : Uint256) (entry : CCoinsCacheEntry) :
    Prop where
  bare : entry.coins.isPruned = true → entry.coins.vout = []
  clean : entry.dirty = true → entry.coins.cleanup = entry.coins
  same : entry.dirty = false → present (some entry.coins) = content V below base txid
  gone : entry.fresh = true → content V below base txid = none
  known : entry.fresh = false → Known txid below

def CacheOk (cache : Layer) (below : List Layer) (base : β) : Prop :=
  ∀ txid entry, cache.cacheCoins.find txid = some entry → EntryOk V below base txid entry

def Layered : List Layer → β → Prop
  | [], _ => True
  | cache :: below, base => CacheOk V cache below base ∧ Layered below base

/-- The view has changed in nothing but what its caches remember. -/
structure Filled (layers : List Layer) (base : β) (layers' : List Layer) (base' : β) : Prop where
  content_eq : content V layers' base' = content V layers base
  known : ∀ txid, Known txid layers → Known txid layers'
  bestBlock : (getBestBlock V.toCCoinsView layers' base').1 =
    (getBestBlock V.toCCoinsView layers base).1

variable {V} {cache : Layer} {layers layers' below below' : List Layer} {base base' : β}
  {txid txid' : Uint256} {entry : CCoinsCacheEntry}

theorem Filled.refl : Filled V layers base layers base :=
  ⟨rfl, fun _ h => h, rfl⟩

theorem EntryOk.mono (h : Filled V below base below' base') (he : EntryOk V below base txid entry) :
    EntryOk V below' base' txid entry where
  bare := he.bare
  clean := he.clean
  same hd := h.content_eq ▸ he.same hd
  gone hf := h.content_eq ▸ he.gone hf
  known hf := h.known txid (he.known hf)

theorem CacheOk.mono (h : Filled V below base below' base') (hc : CacheOk V cache below base) :
    CacheOk V cache below' base' := fun txid entry hfind => (hc txid entry hfind).mono h

theorem CacheOk.put (hc : CacheOk V cache below base) (he : EntryOk V below base txid entry) :
    CacheOk V (cache.put txid entry) below base := by
  intro txid' entry' hfind
  rcases Dict.find_set_cases hfind with ⟨rfl, rfl⟩ | ⟨-, hfind⟩
  · exact he
  · exact hc txid' entry' hfind

theorem CacheOk.erase (hc : CacheOk V cache below base) (txid : Uint256) :
    CacheOk V (cache.erase txid) below base := by
  intro txid' entry' hfind
  rw [Layer.erase, Dict.find_erase] at hfind
  split at hfind
  · cases hfind
  · exact hc txid' entry' hfind

theorem content_put (cache : Layer) (txid : Uint256) (entry : CCoinsCacheEntry)
    (below : List Layer) (base : β) (txid' : Uint256) :
    content V (cache.put txid entry :: below) base txid' =
      if txid' = txid then present (some entry.coins)
      else content V (cache :: below) base txid' := by
  simp only [content, Layer.put, Dict.find_set]
  by_cases htxid : txid' = txid
  · simp only [if_pos htxid]
  · simp only [if_neg htxid]

theorem content_erase (cache : Layer) (txid : Uint256) (below : List Layer) (base : β)
    (txid' : Uint256) : content V (cache.erase txid :: below) base txid' =
      if txid' = txid then content V below base txid
      else content V (cache :: below) base txid' := by
  simp only [content, Layer.erase, Dict.find_erase]
  by_cases htxid : txid' = txid
  · simp only [htxid, if_true]
  · simp only [if_neg htxid]

theorem content_cons_congr (h : content V below' base' = content V below base) (cache : Layer) :
    content V (cache :: below') base' = content V (cache :: below) base := by
  funext txid
  simp only [content, h]

theorem bestBlock_cons_congr (h : (getBestBlock V.toCCoinsView below' base').1 =
      (getBestBlock V.toCCoinsView below base).1) {cache cache' : Layer}
    (hhash : cache'.hashBlock = cache.hashBlock) :
    (getBestBlock V.toCCoinsView (cache' :: below') base').1 =
      (getBestBlock V.toCCoinsView (cache :: below) base).1 := by
  simp only [getBestBlock, hhash]
  split
  · exact h
  · rfl

theorem Filled.cons (h : Filled V below base below' base') (cache : Layer) :
    Filled V (cache :: below) base (cache :: below') base' where
  content_eq := content_cons_congr h.content_eq cache
  known _ hk := hk
  bestBlock := bestBlock_cons_congr h.bestBlock rfl

/-- Reading returns what the view holds, and every cache on the way then has the entry. -/
structure Fetched (txid : Uint256) (layers : List Layer) (base : β)
    (r : Option CCoins × List Layer × β) : Prop where
  present_eq : present r.1 = content V layers base txid
  bare : ∀ coins, r.1 = some coins → coins.isPruned = true → coins.vout = []
  filled : Filled V layers base r.2.1 r.2.2
  layered : Layered V r.2.1 r.2.2
  known : r.1.isSome = true → Known txid r.2.1

theorem getCoins_spec (h : Layered V layers base) (txid : Uint256) :
    Fetched (V := V) txid layers base (getCoins V.toCCoinsView txid layers base) := by
  induction layers with
  | nil =>
    exact ⟨V.present_getCoins base txid, V.bare_getCoins base txid,
      ⟨V.content_getCoins base txid, fun _ _ => trivial, V.getBestBlock_getCoins base txid⟩,
      trivial, fun _ => trivial⟩
  | cons cache below ih =>
    obtain ⟨hcache, hbelow⟩ := h
    cases hfind : cache.cacheCoins.find txid with
    | some entry =>
      have hget : getCoins V.toCCoinsView txid (cache :: below) base =
          (some entry.coins, cache :: below, base) := by
        simp only [getCoins, hfind]
      rw [hget]
      refine ⟨?_, fun coins heq => ?_, Filled.refl, ⟨hcache, hbelow⟩, fun _ => ?_⟩
      · simp only [content, hfind]
      · obtain rfl : entry.coins = coins := Option.some.inj heq
        exact (hcache txid entry hfind).bare
      · exact Dict.count_eq_true.mpr ⟨entry, hfind⟩
    | none =>
      have hfetch := ih hbelow
      have hcontent : content V (cache :: below) base txid = content V below base txid := by
        simp only [content, hfind]
      generalize hr : getCoins V.toCCoinsView txid below base = r at hfetch
      obtain ⟨coins, below', base'⟩ := r
      have hcache' := hcache.mono hfetch.filled
      cases coins with
      | none =>
        have hget : getCoins V.toCCoinsView txid (cache :: below) base =
            (none, cache :: below', base') := by
          simp only [getCoins, hfind, hr]
        rw [hget]
        exact ⟨hfetch.present_eq.trans hcontent.symm, nofun, hfetch.filled.cons cache,
          ⟨hcache', hfetch.layered⟩, nofun⟩
      | some coins =>
        have hget : getCoins V.toCCoinsView txid (cache :: below) base =
            (some coins, cache.put txid ⟨coins, false, coins.isPruned⟩ :: below', base') := by
          simp only [getCoins, hfind, hr]
        rw [hget]
        have hok : EntryOk V below' base' txid ⟨coins, false, coins.isPruned⟩ :=
          { bare := hfetch.bare coins rfl
            clean := nofun
            same := fun _ => hfetch.present_eq.trans (congrFun hfetch.filled.content_eq txid).symm
            gone := fun hpruned => (congrFun hfetch.filled.content_eq txid).trans
              (hfetch.present_eq.symm.trans (present_some_of_isPruned hpruned))
            known := fun _ => hfetch.known rfl }
        refine ⟨hfetch.present_eq.trans hcontent.symm, hfetch.bare, ⟨?_, fun txid' hk => ?_, ?_⟩,
          ⟨hcache'.put hok, hfetch.layered⟩, fun _ => ?_⟩
        · funext txid'
          rw [content_put]
          split
          · next htxid => rw [htxid, hcontent]; exact hfetch.present_eq
          · exact congrFun (content_cons_congr hfetch.filled.content_eq cache) txid'
        · obtain ⟨entry, hentry⟩ := Dict.count_eq_true.mp hk
          rw [Known, Dict.count_eq_true, Layer.put]
          rw [Dict.find_set]
          split
          · exact ⟨_, rfl⟩
          · exact ⟨entry, hentry⟩
        · exact bestBlock_cons_congr hfetch.filled.bestBlock rfl
        · exact Dict.count_eq_true.mpr ⟨_, Dict.find_set_self _ _ _⟩

/-- What `ModifyCoins` hands out is what the cache holds; the flags it sets are right. -/
structure Opened (txid : Uint256) (cache : Layer) (below : List Layer) (base : β)
    (r : CCoinsCacheEntry × List Layer × β) : Prop where
  present_eq : present (some r.1.coins) = content V (cache :: below) base txid
  dirty : r.1.dirty = true
  gone : r.1.fresh = true → content V r.2.1 r.2.2 txid = none
  known : r.1.fresh = false → Known txid r.2.1
  filled : Filled V below base r.2.1 r.2.2
  layered : Layered V r.2.1 r.2.2

theorem openEntry_spec (hcache : CacheOk V cache below base) (hbelow : Layered V below base)
    (txid : Uint256) :
    Opened (V := V) txid cache below base (openEntry V.toCCoinsView txid cache below base) := by
  cases hfind : cache.cacheCoins.find txid with
  | some entry =>
    have hopen : openEntry V.toCCoinsView txid cache below base =
        ({ entry with dirty := true }, below, base) := by
      simp only [openEntry, hfind]
    have hok := hcache txid entry hfind
    rw [hopen]
    refine ⟨?_, rfl, hok.gone, hok.known, Filled.refl, hbelow⟩
    simp only [content, hfind]
  | none =>
    have hfetch := getCoins_spec hbelow txid
    have hcontent : content V (cache :: below) base txid = content V below base txid := by
      simp only [content, hfind]
    generalize hr : getCoins V.toCCoinsView txid below base = r at hfetch
    obtain ⟨coins, below', base'⟩ := r
    have hpresent : content V below' base' txid = present coins :=
      (congrFun hfetch.filled.content_eq txid).trans hfetch.present_eq.symm
    cases coins with
    | none =>
      have hopen : openEntry V.toCCoinsView txid cache below base =
          (⟨CCoins.empty, true, true⟩, below', base') := by
        simp only [openEntry, hfind, hr]
      rw [hopen]
      exact ⟨hfetch.present_eq.trans hcontent.symm, rfl, fun _ => hpresent, nofun, hfetch.filled,
        hfetch.layered⟩
    | some coins =>
      have hopen : openEntry V.toCCoinsView txid cache below base =
          (⟨coins, true, coins.isPruned⟩, below', base') := by
        simp only [openEntry, hfind, hr]
      rw [hopen]
      exact ⟨hfetch.present_eq.trans hcontent.symm, rfl,
        fun hpruned => hpresent.trans (present_some_of_isPruned hpruned),
        fun _ => hfetch.known rfl, hfetch.filled, hfetch.layered⟩

theorem closeEntry_spec (hcache : CacheOk V cache below base) (hdirty : entry.dirty = true)
    (hgone : entry.fresh = true → content V below base txid = none)
    (hknown : entry.fresh = false → Known txid below) (coins : CCoins) :
    CacheOk V (closeEntry txid cache entry coins) below base ∧
      content V (closeEntry txid cache entry coins :: below) base =
        Function.update (content V (cache :: below) base) txid (present (some coins.cleanup)) := by
  unfold closeEntry
  split
  · next hdrop =>
    obtain ⟨hfresh, hpruned⟩ := Bool.and_eq_true_iff.mp hdrop
    refine ⟨hcache.erase txid, ?_⟩
    funext txid'
    rw [content_erase, Function.update_apply, hgone hfresh, present_some_of_isPruned hpruned]
  · refine ⟨hcache.put ⟨bare_of_cleanup (cleanup_cleanup coins), fun _ => cleanup_cleanup coins,
      fun hd => absurd (hdirty.symm.trans hd) (by decide), hgone, hknown⟩, ?_⟩
    funext txid'
    rw [content_put, Function.update_apply]

/-- What a modification makes of the stack; `r` is what `ModifyCoins` hands out. -/
theorem modifyCoins_spec (h : Layered V (cache :: below) base)
    {r : CCoinsCacheEntry × List Layer × β}
    (hr : openEntry V.toCCoinsView txid cache below base = r)
    (coins : CCoins) :
    present (some r.1.coins) = content V (cache :: below) base txid ∧
      Layered V (closeEntry txid cache r.1 coins :: r.2.1) r.2.2 ∧
      content V (closeEntry txid cache r.1 coins :: r.2.1) r.2.2 =
        Function.update (content V (cache :: below) base) txid (present (some coins.cleanup)) := by
  obtain ⟨hcache, hbelow⟩ := h
  have hopen := openEntry_spec hcache hbelow txid
  rw [hr] at hopen
  obtain ⟨hok, hcontent⟩ := closeEntry_spec (hcache.mono hopen.filled) hopen.dirty hopen.gone
    hopen.known coins
  rw [content_cons_congr hopen.filled.content_eq cache] at hcontent
  exact ⟨hopen.present_eq, ⟨hok, hopen.layered⟩, hcontent⟩

/-- The entry of the parent after one round of `BatchWrite`. -/
def written (us : Option CCoinsCacheEntry) (e : CCoinsCacheEntry) : Option CCoinsCacheEntry :=
  if e.dirty then
    match us with
    | none => if e.coins.isPruned then none else some ⟨e.coins, true, true⟩
    | some us =>
      if us.fresh && e.coins.isPruned then none
      else some { us with coins := e.coins, dirty := true }
  else us

/-- The assertion of `BatchWrite`. -/
def Writable (us : Option CCoinsCacheEntry) (e : CCoinsCacheEntry) : Prop :=
  e.dirty = true → us = none → e.coins.isPruned = false → e.fresh = true

theorem writeEntry_spec (cacheCoins : CCoinsMap) (txid : Uint256) (e : CCoinsCacheEntry)
    (h : Writable (cacheCoins.find txid) e) :
    ∃ cacheCoins', writeEntry cacheCoins (txid, e) = some cacheCoins' ∧ ∀ txid',
      cacheCoins'.find txid' =
        if txid' = txid then written (cacheCoins.find txid) e else cacheCoins.find txid' := by
  have hsame : ∀ txid', cacheCoins.find txid' =
      if txid' = txid then cacheCoins.find txid else cacheCoins.find txid' := fun txid' => by
    split
    · next htxid => rw [htxid]
    · rfl
  cases hdirty : e.dirty with
  | false =>
    refine ⟨cacheCoins, by simp [writeEntry, hdirty], ?_⟩
    simpa only [written, hdirty, Bool.false_eq_true, if_false] using hsame
  | true =>
    cases hfind : cacheCoins.find txid with
    | none =>
      cases hpruned : e.coins.isPruned with
      | true =>
        refine ⟨cacheCoins, by simp [writeEntry, hdirty, hfind, hpruned], ?_⟩
        simpa only [written, hdirty, hfind, hpruned, if_true] using hsame
      | false =>
        have hfresh := h hdirty hfind hpruned
        refine ⟨cacheCoins.set txid ⟨e.coins, true, true⟩, ?_, ?_⟩
        · simp [writeEntry, hdirty, hfind, hpruned, hfresh]
        · simpa [written, hdirty, hpruned] using
            Dict.find_set cacheCoins txid (v := ⟨e.coins, true, true⟩)
    | some us =>
      by_cases hdrop : (us.fresh && e.coins.isPruned) = true
      · refine ⟨cacheCoins.erase txid, ?_, ?_⟩
        · simp only [writeEntry, hdirty, hfind, hdrop, if_true]
        · simpa only [written, hdirty, hdrop, if_true] using Dict.find_erase cacheCoins txid
      · refine ⟨cacheCoins.set txid { us with coins := e.coins, dirty := true }, ?_, ?_⟩
        · simp only [writeEntry, hdirty, hfind, hdrop, if_true, Bool.false_eq_true, if_false]
        · simpa only [written, hdirty, hdrop, if_true, Bool.false_eq_true, if_false] using
            fun txid' => Dict.find_set cacheCoins txid txid' _

/-- An entry of the child that is written into the parent leaves there what the child held. -/
theorem written_spec {parent : Layer} {e : CCoinsCacheEntry}
    (hparent : CacheOk V parent below base) (he : EntryOk V (parent :: below) base txid e) :
    Writable (parent.cacheCoins.find txid) e ∧
    (∀ entry, written (parent.cacheCoins.find txid) e = some entry →
      EntryOk V below base txid entry ∧ present (some entry.coins) = present (some e.coins)) ∧
    (written (parent.cacheCoins.find txid) e = none →
      content V below base txid = present (some e.coins)) := by
  cases hfind : parent.cacheCoins.find txid with
  | none =>
    have hcontent : content V (parent :: below) base txid = content V below base txid := by
      simp only [content, hfind]
    have hfresh : e.fresh = true := by
      by_contra hfresh
      have hknown := he.known (Bool.eq_false_iff.mpr hfresh)
      rw [Known, Dict.count, hfind] at hknown
      cases hknown
    have hgone : content V below base txid = none := hcontent.symm.trans (he.gone hfresh)
    refine ⟨fun _ _ _ => hfresh, fun entry hwritten => ?_, fun hwritten => ?_⟩
    · unfold written at hwritten
      split at hwritten
      · next hdirty =>
        simp only at hwritten
        split at hwritten
        · cases hwritten
        · obtain rfl := Option.some.inj hwritten
          exact ⟨⟨he.bare, fun _ => he.clean hdirty, fun h => absurd h.symm Bool.false_ne_true,
            fun _ => hgone, fun h => absurd h.symm Bool.false_ne_true⟩, rfl⟩
      · cases hwritten
    · unfold written at hwritten
      split at hwritten
      · simp only at hwritten
        split at hwritten
        · next hpruned => rw [hgone, present_some_of_isPruned hpruned]
        · cases hwritten
      · next hdirty =>
        rw [he.same (Bool.eq_false_iff.mpr hdirty), hcontent]
  | some us =>
    have hus := hparent txid us hfind
    have hcontent : content V (parent :: below) base txid = present (some us.coins) := by
      simp only [content, hfind]
    refine ⟨fun _ h => absurd h (Option.some_ne_none us), fun entry hwritten => ?_, fun hwritten => ?_⟩
    · unfold written at hwritten
      split at hwritten
      · next hdirty =>
        simp only at hwritten
        split at hwritten
        · cases hwritten
        · obtain rfl := Option.some.inj hwritten
          exact ⟨⟨he.bare, fun _ => he.clean hdirty, fun h => absurd h.symm Bool.false_ne_true,
            hus.gone, hus.known⟩, rfl⟩
      · next hdirty =>
        obtain rfl := Option.some.inj hwritten
        exact ⟨hus, hcontent.symm.trans (he.same (Bool.eq_false_iff.mpr hdirty)).symm⟩
    · unfold written at hwritten
      split at hwritten
      · simp only at hwritten
        split at hwritten
        · next hdrop =>
          obtain ⟨hfresh, hpruned⟩ := Bool.and_eq_true_iff.mp hdrop
          rw [hus.gone hfresh, present_some_of_isPruned hpruned]
        · cases hwritten
      · cases hwritten

theorem batchWrite_spec {parent : Layer} (hcache : CacheOk V cache (parent :: below) base)
    (hparent : CacheOk V parent below base) (hashBlock : Uint256) :
    ∃ parent', batchWrite parent cache.cacheCoins hashBlock = some parent' ∧
      parent'.hashBlock = hashBlock ∧ CacheOk V parent' below base ∧
      content V (parent' :: below) base = content V (cache :: parent :: below) base := by
  obtain ⟨cacheCoins, hwrite, hfind⟩ := Dict.find_foldlM_toList
    (P := fun _ => Writable) (g := written) writeEntry_spec cache.cacheCoins parent.cacheCoins
    fun txid e he => (written_spec hparent (hcache txid e he)).1
  refine ⟨⟨hashBlock, cacheCoins⟩, by rw [batchWrite, hwrite]; rfl, rfl, fun txid entry h => ?_, ?_⟩
  · change cacheCoins.find txid = some entry at h
    rw [hfind] at h
    cases hchild : cache.cacheCoins.find txid with
    | none => exact hparent txid entry (by simpa only [hchild] using h)
    | some e =>
      exact ((written_spec hparent (hcache txid e hchild)).2.1 entry
        (by simpa only [hchild] using h)).1
  · funext txid
    have hfind := hfind txid
    cases hchild : cache.cacheCoins.find txid with
    | none =>
      simp only [hchild] at hfind
      simp only [content, hfind, hchild]
    | some e =>
      obtain ⟨-, hsome, hnone⟩ := written_spec hparent (hcache txid e hchild)
      simp only [hchild] at hfind
      simp only [content, hfind, hchild]
      cases hwritten : written (parent.cacheCoins.find txid) e with
      | none => exact hnone hwritten
      | some entry => exact (hsome entry hwritten).2

/-- A cache that is flushed hands its content and its best block to the view below, and no
other view changes. -/
structure Flushed (cache : Layer) (below : List Layer) (base : β) (layers : List Layer)
    (base' : β) : Prop where
  layered : Layered V layers base'
  content_eq : content V layers base' = content V (cache :: below) base
  bestBlock : (getBestBlock V.toCCoinsView layers base').1 =
    (getBestBlock V.toCCoinsView (cache :: below) base).1
  length_eq : layers.length = below.length
  tail_eq : layers.tail = below.tail
  base_eq : below ≠ [] → base' = base

theorem flush_spec (h : Layered V (cache :: below) base)
    (hsettled : cache.hashBlock = (getBestBlock V.toCCoinsView (cache :: below) base).1) :
    ∃ layers base', flush V.toCCoinsView cache below base = some (layers, base') ∧
      Flushed (V := V) cache below base layers base' := by
  obtain ⟨hcache, hbelow⟩ := h
  cases below with
  | nil =>
    refine ⟨[], _, rfl, trivial, ?_, ?_, rfl, rfl, nofun⟩
    · funext txid
      exact V.content_batchWrite base cache.cacheCoins cache.hashBlock
        (fun txid entry hfind =>
          ⟨(hcache txid entry hfind).clean, (hcache txid entry hfind).same⟩) txid
    · rw [← hsettled]
      refine V.getBestBlock_batchWrite base cache.cacheCoins cache.hashBlock fun hzero => ?_
      rw [getBestBlock, if_pos hzero] at hsettled
      exact hsettled.symm.trans hzero
  | cons parent below =>
    obtain ⟨parent', hwrite, hhash, hparent, hcontent⟩ :=
      batchWrite_spec hcache hbelow.1 cache.hashBlock
    refine ⟨parent' :: below, base, by rw [flush, hwrite]; rfl, ⟨hparent, hbelow.2⟩, hcontent, ?_,
      rfl, rfl, fun _ => rfl⟩
    rw [← hsettled]
    by_cases hzero : cache.hashBlock = 0
    · -- then the view below has no best block, and neither has the one below that
      rw [getBestBlock, if_pos hzero] at hsettled
      rw [getBestBlock, hhash, if_pos hzero]
      have hbest : (getBestBlock V.toCCoinsView (parent :: below) base).1 = 0 :=
        hsettled.symm.trans hzero
      rw [getBestBlock] at hbest
      split at hbest
      · exact hbest.trans hzero.symm
      · next hne => exact absurd hbest hne
    · rw [getBestBlock, hhash, if_neg hzero]

theorem content_hashBlock (cache : Layer) (hash : Uint256) (below : List Layer) (base : β) :
    content V ({ cache with hashBlock := hash } :: below) base = content V (cache :: below) base :=
  rfl

theorem getBestBlock_spec (h : Layered V layers base) :
    Filled V layers base (getBestBlock V.toCCoinsView layers base).2 base ∧
      Layered V (getBestBlock V.toCCoinsView layers base).2 base := by
  have hagain := getBestBlock_again V.toCCoinsView layers base
  induction layers with
  | nil => exact ⟨Filled.refl, trivial⟩
  | cons cache below ih =>
    by_cases hzero : cache.hashBlock = 0
    · obtain ⟨hfilled, hlayered⟩ := ih h.2 (getBestBlock_again V.toCCoinsView below base)
      simp only [getBestBlock, hzero, if_true] at hagain ⊢
      refine ⟨⟨?_, fun _ hk => hk, ?_⟩, h.1.mono hfilled, hlayered⟩
      · exact (content_hashBlock cache _ _ base).trans (content_cons_congr hfilled.content_eq cache)
      · simpa only [getBestBlock, hzero, if_true] using hagain
    · simp only [getBestBlock, hzero, if_false]
      exact ⟨Filled.refl, h⟩

end Content

/-! One plain map beside the stack. -/

abbrev PlainMap := Uint256 → Option CCoins

namespace Event

/-- The same modification of the plain map; reading leaves it as it is. -/
def apply (m : PlainMap) : Event → PlainMap
  | .modified txid _ after => Function.update m txid (present (some after.cleanup))
  | _ => m

/-- The stack has answered what the plain map would have. -/
def Answers (m : PlainMap) : Event → Prop
  | .read txid coins => present coins = m txid
  | .had txid answer => answer = (m txid).isSome
  | .modified txid before _ => present (some before) = m txid

end Event

/-- The events are those of a plain map that starts as `m` and ends as `m'`. -/
def Replays (m : PlainMap) : List Event → PlainMap → Prop
  | [], m' => m' = m
  | e :: es, m' => e.Answers m ∧ Replays (e.apply m) es m'

theorem Replays.snoc {m m' : PlainMap} {es : List Event} (h : Replays m es m') {e : Event}
    (he : e.Answers m') : Replays m (es ++ [e]) (e.apply m') := by
  induction es generalizing m with
  | nil =>
    obtain rfl : m' = m := h
    exact ⟨he, rfl⟩
  | cons e' es ih => exact ⟨h.1, ih h.2⟩

section Runs

variable {β : Type} (V : BaseView β)

namespace Stack

/-- Every cache knows what it has to of the view below it, no assertion has failed, and what was
seen is what the plain map answers. -/
structure Refines (m : PlainMap) (s : Stack β) : Prop where
  layered : Layered V s.layers s.base
  asserted : s.asserted = false
  replays : Replays m s.trace (content V s.layers s.base)

variable {V} {m : PlainMap} {s : Stack β}

theorem Refines.readCoins (h : s.Refines V m) (txid : Uint256) (event : Option CCoins → Event)
    (hanswers : ∀ coins, present coins = content V s.layers s.base txid →
      (∀ c, coins = some c → c.isPruned = true → c.vout = []) →
      (event coins).Answers (content V s.layers s.base))
    (happly : ∀ coins m', (event coins).apply m' = m') :
    (s.readCoins V.toCCoinsView txid event).Refines V m := by
  have hfetch := getCoins_spec h.layered txid
  unfold Stack.readCoins
  generalize CoinsCache.getCoins V.toCCoinsView txid s.layers s.base = r at hfetch
  obtain ⟨coins, layers, base⟩ := r
  refine ⟨hfetch.layered, h.asserted, ?_⟩
  have hsnoc := h.replays.snoc (hanswers coins hfetch.present_eq hfetch.bare)
  rw [happly, ← hfetch.filled.content_eq] at hsnoc
  exact hsnoc

theorem Refines.step (h : s.Refines V m) (op : Op) (hready : s.Ready V.toCCoinsView op) :
    (s.step V.toCCoinsView op).Refines V m := by
  cases op with
  | getCoins txid => exact h.readCoins txid (.read txid) (fun _ hcoins _ => hcoins) fun _ _ => rfl
  | accessCoins txid =>
    exact h.readCoins txid (.read txid) (fun _ hcoins _ => hcoins) fun _ _ => rfl
  | haveCoins txid =>
    refine h.readCoins txid (fun coins => .had txid (coins.any fun c => !c.vout.isEmpty))
      (fun coins hcoins hbare => ?_) fun _ _ => rfl
    change coins.any _ = _
    rw [← hcoins]
    cases coins with
    | none => rfl
    | some c =>
      cases hpruned : c.isPruned with
      | true => simp [present_some_of_isPruned hpruned, hbare c rfl hpruned]
      | false =>
        have hvout : c.vout ≠ [] := by
          intro hnil
          rw [CCoins.isPruned, hnil] at hpruned
          cases hpruned
        simp [present, Option.filter, hpruned, hvout]
  | modifyCoins txid change =>
    obtain ⟨layers, base, trace, asserted⟩ := s
    cases layers with
    | nil => exact Bool.noConfusion (hready : true = false)
    | cons cache below =>
      obtain ⟨hlayered, hasserted, hreplays⟩ := h
      unfold Stack.step
      simp only
      generalize hr : openEntry V.toCCoinsView txid cache below base = r
      obtain ⟨hbefore, hlayered', hcontent⟩ := modifyCoins_spec hlayered hr (change r.1.coins)
      refine ⟨hlayered', hasserted, ?_⟩
      have hsnoc := hreplays.snoc (e := .modified txid r.1.coins (change r.1.coins)) hbefore
      change Replays m (trace ++ _) (content V (closeEntry txid cache r.1 _ :: r.2.1) r.2.2)
      rw [hcontent]
      exact hsnoc
  | getBestBlock =>
    obtain ⟨hfilled, hlayered⟩ := getBestBlock_spec h.layered
    refine ⟨hlayered, h.asserted, ?_⟩
    exact hfilled.content_eq ▸ h.replays
  | setBestBlock hash =>
    obtain ⟨layers, base, trace, asserted⟩ := s
    cases layers with
    | nil => exact Bool.noConfusion (hready : true = false)
    | cons cache below => exact ⟨h.layered, h.asserted, h.replays⟩
  | push =>
    have hcontent : content V ({} :: s.layers) s.base = content V s.layers s.base := rfl
    refine ⟨⟨fun _ _ hfind => ?_, h.layered⟩, h.asserted, hcontent ▸ h.replays⟩
    rw [Dict.find_empty] at hfind
    cases hfind
  | flush =>
    obtain ⟨layers, base, trace, asserted⟩ := s
    cases layers with
    | nil => exact Bool.noConfusion (hready.1 : true = false)
    | cons cache below =>
      obtain ⟨layers', base', hflush, hflushed⟩ := flush_spec h.layered (hready.2 cache rfl)
      unfold Stack.step
      simp only [hflush]
      refine ⟨hflushed.layered, h.asserted, ?_⟩
      change Replays m trace (content V layers' base')
      rw [hflushed.content_eq]
      exact h.replays

end Stack

/-- An empty stack over a base view. -/
def Stack.over (base : β) : Stack β := { layers := [], base := base }

/-- In every run from an empty stack no assertion fails, everything read is what one plain map
returns that starts as the content of the base and takes the same modifications, and this map is
what the stack holds in the end. A cache that is then flushed leaves the view below with its
content and its best block, and no view further down changes. -/
theorem stack_refines_plain_map (base : β) (ops : List Op)
    (hready : Runs.Meets (Stack.step V.toCCoinsView) (Stack.Ready V.toCCoinsView)
      (Stack.over base) ops) :
    let s := Runs.run (Stack.step V.toCCoinsView) (Stack.over base) ops
    s.asserted = false ∧ Replays (V.content base) s.trace (content V s.layers s.base) ∧
      ∀ cache below, s.layers = cache :: below → s.Settled V.toCCoinsView →
        ∃ layers base', s.step V.toCCoinsView .flush = { s with layers := layers, base := base' } ∧
          content V layers base' = content V s.layers s.base ∧
          (getBestBlock V.toCCoinsView layers base').1 =
            (getBestBlock V.toCCoinsView s.layers s.base).1 ∧
          layers.length = below.length ∧ layers.tail = below.tail ∧
          (below ≠ [] → base' = s.base) := by
  have h := Runs.run_invariant (I := Stack.Refines V (V.content base))
    (fun s op hs hop => hs.step op hop) (s := Stack.over base) ⟨trivial, rfl, rfl⟩ hready
  refine ⟨h.asserted, h.replays, fun cache below hlayers hsettled => ?_⟩
  generalize Runs.run (Stack.step V.toCCoinsView) (Stack.over base) ops = s at *
  obtain ⟨layers, base₀, trace, asserted⟩ := s
  obtain rfl : layers = cache :: below := hlayers
  obtain ⟨layers', base', hflush, hflushed⟩ := flush_spec h.layered (hsettled cache rfl)
  refine ⟨layers', base', ?_, hflushed.content_eq, hflushed.bestBlock, hflushed.length_eq,
    hflushed.tail_eq, hflushed.base_eq⟩
  unfold Stack.step
  simp only [hflush]

end Runs

/-! The database of coins as the base. -/

structure CCoinsViewDB where
  coins : Dict Uint256 CCoins := Dict.empty
  hashBestChain : Uint256 := 0

namespace CCoinsViewDB

/-- `BatchWriteCoins`, for the dirty entries; only the others are kept as they are. -/
def writeCoins (coins : Dict Uint256 CCoins) (e : Uint256 × CCoinsCacheEntry) :
    Dict Uint256 CCoins :=
  if e.2.dirty then
    if e.2.coins.isPruned then coins.erase e.1 else coins.set e.1 e.2.coins
  else coins

/-- Reading drops spent outputs at the end. -/
def getCoins (db : CCoinsViewDB) (txid : Uint256) : Option CCoins :=
  (db.coins.find txid).map CCoins.cleanup

def batchWrite (db : CCoinsViewDB) (mapCoins : CCoinsMap) (hashBlock : Uint256) : CCoinsViewDB :=
  { coins := mapCoins.toList.foldl writeCoins db.coins
    hashBestChain := if hashBlock = 0 then db.hashBestChain else hashBlock }

/-- The stored coins of a transaction after an entry has been written. -/
def stored (coins : Option CCoins) (e : CCoinsCacheEntry) : Option CCoins :=
  if e.dirty then if e.coins.isPruned then none else some e.coins else coins

theorem find_writeCoins (coins : Dict Uint256 CCoins) (txid : Uint256) (e : CCoinsCacheEntry)
    (txid' : Uint256) : (writeCoins coins (txid, e)).find txid' =
      if txid' = txid then stored (coins.find txid) e else coins.find txid' := by
  cases hdirty : e.dirty with
  | false =>
    simp only [writeCoins, stored, hdirty, Bool.false_eq_true, if_false]
    split
    · next htxid => rw [htxid]
    · rfl
  | true =>
    cases hpruned : e.coins.isPruned with
    | true => simp only [writeCoins, stored, hdirty, hpruned, if_true, Dict.find_erase]
    | false =>
      simp only [writeCoins, stored, hdirty, hpruned, if_true, Bool.false_eq_true, if_false,
        Dict.find_set]

def view : BaseView CCoinsViewDB where
  getCoins db txid := (db.getCoins txid, db)
  getBestBlock := hashBestChain
  batchWrite := batchWrite
  content db txid := present (db.getCoins txid)
  present_getCoins _ _ := rfl
  bare_getCoins db txid coins h hpruned := by
    obtain ⟨c, -, rfl⟩ := Option.map_eq_some_iff.mp h
    exact bare_of_cleanup (cleanup_cleanup c) hpruned
  content_getCoins _ _ := rfl
  getBestBlock_getCoins _ _ := rfl
  content_batchWrite db mapCoins hashBlock h txid := by
    simp only [getCoins, batchWrite, Dict.find_foldl_toList find_writeCoins]
    cases hfind : mapCoins.find txid with
    | none => rfl
    | some e =>
      obtain ⟨hclean, hsame⟩ := h txid e hfind
      cases hdirty : e.dirty with
      | false =>
        simp only [stored, hdirty, Bool.false_eq_true, if_false]
        exact (hsame hdirty).symm
      | true =>
        cases hpruned : e.coins.isPruned with
        | true =>
          simp only [stored, hdirty, hpruned, if_true, Option.map_none, present_none,
            present_some_of_isPruned hpruned]
        | false =>
          simp only [stored, hdirty, hpruned, if_true, Bool.false_eq_true, if_false,
            Option.map_some, hclean hdirty]
  getBestBlock_batchWrite db mapCoins hashBlock h := by
    unfold batchWrite
    split
    · next hzero => exact (h hzero).trans hzero.symm
    · rfl

end CCoinsViewDB

section Samples

private def oneCoin (nHeight : ℤ) : CCoins := { vout := [⟨5, [], 0⟩], nHeight := nHeight }

private def storedCoins : CCoinsViewDB :=
  { coins := Dict.empty.set 1 (oneCoin 1), hashBestChain := 8 }

/-- One transaction is added and spent again across two caches, another is spent, and both
caches are flushed. -/
private def spendAndFlush : List Op :=
  [.push, .modifyCoins 2 fun _ => oneCoin 2, .push, .getCoins 1, .haveCoins 2,
    .modifyCoins 2 fun _ => CCoins.empty, .modifyCoins 1 fun c => { c with vout := [CTxOut.null] },
    .modifyCoins 3 fun _ => oneCoin 3, .setBestBlock 9, .flush, .accessCoins 2, .getBestBlock,
    .flush]

theorem stack_refines_plain_map_sample :
    let s := Runs.run (Stack.step CCoinsViewDB.view.toCCoinsView) (Stack.over storedCoins)
      spendAndFlush
    Replays (CCoinsViewDB.view.content storedCoins) s.trace
        (content CCoinsViewDB.view s.layers s.base) ∧
      (s.base.coins.find 1, s.base.coins.find 2, s.base.coins.find 3) =
        (none, none, some (oneCoin 3)) ∧ s.base.hashBestChain = 9 :=
  ⟨(stack_refines_plain_map CCoinsViewDB.view storedCoins spendAndFlush (by decide)).2.1,
    by decide, by decide⟩

end Samples

end CoinsCache
end Scrypta
