import Mathlib.Data.BitVec
import Scrypta.MasternodeOwners

/-! What `CheckAndRemove` erases, with the record of the masternode sync that belongs to each
broadcast. The maps are walked from their first key to their last; the loop over the expired
broadcasts moves on before it asks which hash to drop from the record of the sync. -/

namespace Scrypta.Masternodes

abbrev CNetAddr := BitVec 128

variable {orc : Oracles}

/-- The broadcasts that have been seen. Wherever one is inserted, it is under its own hash. -/
def SeenBroadcasts (orc : Oracles) : Type :=
  { m : Dict Uint256 CMasternodeBroadcast // ∀ hash mnb, m.find hash = some mnb →
    mnb.getHash orc = hash }

def SeenBroadcasts.erase (m : SeenBroadcasts orc) (hash : Uint256) : SeenBroadcasts orc :=
  ⟨m.1.erase hash, fun hash' mnb h => by
    rw [Dict.find_erase] at h
    split at h
    · cases h
    · exact m.2 hash' mnb h⟩

/-- The records in the order of their hashes. -/
def SeenBroadcasts.records (m : SeenBroadcasts orc) : List (Uint256 × CMasternodeBroadcast) :=
  m.1.inOrder BitVec.toNat

/-- The manager with all that `CheckAndRemove` goes through, and `masternodeSync.mapSeenSyncMNB`. -/
structure Upkeep (orc : Oracles) where
  vMasternodes : List CMasternode
  mapSeenMasternodeBroadcast : SeenBroadcasts orc
  mapSeenMasternodePing : Dict Uint256 CMasternodePing
  mAskedUsForMasternodeList : Dict CNetAddr ℤ
  mWeAskedForMasternodeList : Dict CNetAddr ℤ
  mWeAskedForMasternodeListEntry : Dict COutPoint ℤ
  mapSeenSyncMNB : Dict Uint256 ℤ

namespace Upkeep

section Erasing

variable (env : Env)

def checkAll (s : Upkeep orc) : Upkeep orc :=
  { s with vMasternodes := s.vMasternodes.map (·.check env false) }

/-- "erase all of the broadcasts we've seen from this vin" -/
def eraseFrom (vin : CTxIn) : List (Uint256 × CMasternodeBroadcast) → Upkeep orc → Upkeep orc
  | [], s => s
  | (hash, mnb) :: it3, s =>
    if mnb.vin = vin then
      eraseFrom vin it3 { s with
        mapSeenSyncMNB := s.mapSeenSyncMNB.erase hash
        mapSeenMasternodeBroadcast := s.mapSeenMasternodeBroadcast.erase hash }
    else eraseFrom vin it3 s

/-- What goes with an entry of the list. -/
def forget (s : Upkeep orc) (mn : CMasternode) : Upkeep orc :=
  let s := eraseFrom mn.vin s.mapSeenMasternodeBroadcast.records s
  { s with
    mWeAskedForMasternodeListEntry := s.mWeAskedForMasternodeListEntry.erase mn.vin.prevout }

/-- "remove inactive and outdated" -/
def removeEntries (forceExpiredRemoval : Bool) (s : Upkeep orc) : Upkeep orc :=
  let removed := s.vMasternodes.filter (removable env forceExpiredRemoval)
  { removed.foldl forget s with
    vMasternodes := s.vMasternodes.filter fun mn => !removable env forceExpiredRemoval mn }

/-- The three maps of requests lose what lies in the past. -/
def eraseRequests (s : Upkeep orc) : Upkeep orc :=
  { s with
    mAskedUsForMasternodeList := s.mAskedUsForMasternodeList.eraseWhere fun t =>
      decide (t < env.now)
    mWeAskedForMasternodeList := s.mWeAskedForMasternodeList.eraseWhere fun t =>
      decide (t < env.now)
    mWeAskedForMasternodeListEntry := s.mWeAskedForMasternodeListEntry.eraseWhere fun t =>
      decide (t < env.now) }

def expired (mnb : CMasternodeBroadcast) : Bool :=
  decide (mnb.lastPing.sigTime < env.now - removalSeconds * 2)

/-- "remove expired mapSeenMasternodeBroadcast". After the erasure the iterator stands at the next
record, whose hash is dropped from the record of the sync; `none` is a read past the end. -/
def eraseExpired : List (Uint256 × CMasternodeBroadcast) → Upkeep orc → Option (Upkeep orc)
  | [], s => some s
  | (hash, mnb) :: it3, s =>
    if expired env mnb then
      match it3 with
      | [] => none
      | next :: _ => eraseExpired it3 { s with
          mapSeenMasternodeBroadcast := s.mapSeenMasternodeBroadcast.erase hash
          mapSeenSyncMNB := s.mapSeenSyncMNB.erase (next.2.getHash orc) }
    else eraseExpired it3 s

def checkAndRemove (forceExpiredRemoval : Bool) (s : Upkeep orc) : Option (Upkeep orc) :=
  let s := eraseRequests env (removeEntries env forceExpiredRemoval (s.checkAll env))
  (eraseExpired env s.mapSeenMasternodeBroadcast.records s).map fun s => { s with
    mapSeenMasternodePing := s.mapSeenMasternodePing.eraseWhere fun mnp =>
      decide (mnp.sigTime < env.now - removalSeconds * 2) }

end Erasing

section Removal

variable {env : Env} {s : Upkeep orc} {hash : Uint256} {mnb : CMasternodeBroadcast}

theorem mem_records {m : SeenBroadcasts orc} :
    (hash, mnb) ∈ m.records ↔ m.1.find hash = some mnb := Dict.mem_inOrder

/-- The erasures touch the broadcasts and the record of the sync only, under these hashes. -/
structure Drops (hashes : Uint256 → Prop) (s s' : Upkeep orc) : Prop where
  seen : ∀ hash, (hashes hash → s'.mapSeenMasternodeBroadcast.1.find hash = none) ∧
    (¬hashes hash →
      s'.mapSeenMasternodeBroadcast.1.find hash = s.mapSeenMasternodeBroadcast.1.find hash)
  sync : ∀ hash, (hashes hash → s'.mapSeenSyncMNB.find hash = none) ∧
    (¬hashes hash → s'.mapSeenSyncMNB.find hash = s.mapSeenSyncMNB.find hash)

theorem Drops.refl (s : Upkeep orc) : Drops (fun _ => False) s s :=
  ⟨fun _ => ⟨False.elim, fun _ => rfl⟩, fun _ => ⟨False.elim, fun _ => rfl⟩⟩

theorem Drops.trans {p q : Uint256 → Prop} {s' s'' : Upkeep orc} (h : Drops p s s')
    (h' : Drops q s' s'') : Drops (fun hash => p hash ∨ q hash) s s'' := by
  constructor <;> intro hash
  · refine ⟨fun hor => ?_, fun hnot => ?_⟩
    · by_cases hq : q hash
      · exact (h'.seen hash).1 hq
      · rw [(h'.seen hash).2 hq]
        exact (h.seen hash).1 (hor.resolve_right hq)
    · rw [(h'.seen hash).2 fun hq => hnot (Or.inr hq),
        (h.seen hash).2 fun hp => hnot (Or.inl hp)]
  · refine ⟨fun hor => ?_, fun hnot => ?_⟩
    · by_cases hq : q hash
      · exact (h'.sync hash).1 hq
      · rw [(h'.sync hash).2 hq]
        exact (h.sync hash).1 (hor.resolve_right hq)
    · rw [(h'.sync hash).2 fun hq => hnot (Or.inr hq),
        (h.sync hash).2 fun hp => hnot (Or.inl hp)]

theorem Drops.congr {p q : Uint256 → Prop} {s' : Upkeep orc} (h : Drops p s s')
    (hpq : ∀ hash, p hash ↔ q hash) : Drops q s s' := by
  have hsame : p = q := funext fun hash => propext (hpq hash)
  exact hsame ▸ h

theorem drops_erase (s : Upkeep orc) (hash : Uint256) : Drops (· = hash) s { s with
    mapSeenSyncMNB := s.mapSeenSyncMNB.erase hash
    mapSeenMasternodeBroadcast := s.mapSeenMasternodeBroadcast.erase hash } := by
  constructor <;> intro hash'
  · change (_ → (s.mapSeenMasternodeBroadcast.1.erase hash).find hash' = none) ∧
      (_ → (s.mapSeenMasternodeBroadcast.1.erase hash).find hash' = _)
    rw [Dict.find_erase]
    exact ⟨fun heq => if_pos heq, fun hne => if_neg hne⟩
  · change (_ → (s.mapSeenSyncMNB.erase hash).find hash' = none) ∧
      (_ → (s.mapSeenSyncMNB.erase hash).find hash' = _)
    rw [Dict.find_erase]
    exact ⟨fun heq => if_pos heq, fun hne => if_neg hne⟩

/-- One walk drops the broadcasts of the input. -/
theorem drops_eraseFrom (vin : CTxIn) (l : List (Uint256 × CMasternodeBroadcast)) (s : Upkeep orc) :
    Drops (fun hash => ∃ mnb, (hash, mnb) ∈ l ∧ mnb.vin = vin) s (eraseFrom vin l s) := by
  induction l generalizing s with
  | nil => exact (Drops.refl s).congr fun hash => ⟨False.elim, fun ⟨mnb, hmem, _⟩ => nomatch hmem⟩
  | cons e it3 ih =>
    obtain ⟨hash, mnb⟩ := e
    rw [eraseFrom]
    split
    · next hvin =>
      refine ((drops_erase s hash).trans (ih _)).congr fun hash' => ?_
      constructor
      · rintro (rfl | ⟨mnb', hmem, hvin'⟩)
        · exact ⟨mnb, List.mem_cons_self, hvin⟩
        · exact ⟨mnb', List.mem_cons_of_mem _ hmem, hvin'⟩
      · rintro ⟨mnb', hmem, hvin'⟩
        rcases List.mem_cons.mp hmem with heq | hmem
        · exact Or.inl (congrArg Prod.fst heq)
        · exact Or.inr ⟨mnb', hmem, hvin'⟩
    · next hvin =>
      refine (ih s).congr fun hash' => ?_
      constructor
      · rintro ⟨mnb', hmem, hvin'⟩
        exact ⟨mnb', List.mem_cons_of_mem _ hmem, hvin'⟩
      · rintro ⟨mnb', hmem, hvin'⟩
        rcases List.mem_cons.mp hmem with heq | hmem
        · cases heq
          exact absurd hvin' hvin
        · exact ⟨mnb', hmem, hvin'⟩

/-- The broadcast under this hash comes from one of the inputs. -/
def SeenFrom (s : Upkeep orc) (removed : List CMasternode) (hash : Uint256) : Prop :=
  ∃ mnb, s.mapSeenMasternodeBroadcast.1.find hash = some mnb ∧ ∃ mn ∈ removed, mnb.vin = mn.vin

theorem drops_forget (s : Upkeep orc) (mn : CMasternode) :
    Drops (SeenFrom s [mn]) s (s.forget mn) := by
  have hdrops := drops_eraseFrom mn.vin s.mapSeenMasternodeBroadcast.records s
  have hsame : Drops (fun hash => ∃ mnb, (hash, mnb) ∈ s.mapSeenMasternodeBroadcast.records ∧
      mnb.vin = mn.vin) s (s.forget mn) := ⟨hdrops.seen, hdrops.sync⟩
  refine hsame.congr fun hash => exists_congr fun mnb => ?_
  rw [mem_records]
  exact and_congr_right fun _ => ⟨fun h => ⟨mn, List.mem_singleton_self mn, h⟩,
    fun ⟨mn', hmem, h⟩ => List.mem_singleton.mp hmem ▸ h⟩

theorem drops_removed (removed : List CMasternode) (s : Upkeep orc) :
    Drops (SeenFrom s removed) s (removed.foldl forget s) := by
  induction removed generalizing s with
  | nil =>
    exact (Drops.refl s).congr fun hash => ⟨False.elim, fun ⟨_, _, _, hmem, _⟩ => nomatch hmem⟩
  | cons mn rest ih =>
    have hfirst := drops_forget s mn
    refine (hfirst.trans (ih (s.forget mn))).congr fun hash => ?_
    constructor
    · rintro (⟨mnb, hfind, mn', hmem, hvin⟩ | ⟨mnb, hfind, mn', hmem, hvin⟩)
      · exact ⟨mnb, hfind, mn', List.mem_cons.mpr (Or.inl (List.mem_singleton.mp hmem)), hvin⟩
      · by_cases hdropped : SeenFrom s [mn] hash
        · rw [(hfirst.seen hash).1 hdropped] at hfind
          cases hfind
        · rw [(hfirst.seen hash).2 hdropped] at hfind
          exact ⟨mnb, hfind, mn', List.mem_cons_of_mem _ hmem, hvin⟩
    · rintro ⟨mnb, hfind, mn', hmem, hvin⟩
      by_cases hdropped : SeenFrom s [mn] hash
      · exact Or.inl hdropped
      · refine Or.inr ⟨mnb, by rw [(hfirst.seen hash).2 hdropped, hfind], mn', ?_, hvin⟩
        rcases List.mem_cons.mp hmem with rfl | hmem
        · exact absurd ⟨mnb, hfind, mn', List.mem_singleton_self mn', hvin⟩ hdropped
        · exact hmem

end Removal

section Expiry

variable {env : Env} {s : Upkeep orc} {l : List (Uint256 × CMasternodeBroadcast)}

/-- The hashes of the records that come after an expired one; `prev` is about the one before. -/
def followers (env : Env) : Bool → List (Uint256 × CMasternodeBroadcast) → List Uint256
  | _, [] => []
  | prev, (hash, mnb) :: it3 =>
    (if prev then [hash] else []) ++ followers env (expired env mnb) it3

/-- The last record is expired. -/
def endsExpired (env : Env) : Bool → List (Uint256 × CMasternodeBroadcast) → Bool
  | prev, [] => prev
  | _, (_, mnb) :: it3 => endsExpired env (expired env mnb) it3

def expiredHashes (env : Env) (l : List (Uint256 × CMasternodeBroadcast)) : List Uint256 :=
  (l.filter fun e => expired env e.2).map Prod.fst

theorem expiredHashes_cons (hash : Uint256) (mnb : CMasternodeBroadcast)
    (it3 : List (Uint256 × CMasternodeBroadcast)) : expiredHashes env ((hash, mnb) :: it3) =
      if expired env mnb then hash :: expiredHashes env it3 else expiredHashes env it3 := by
  unfold expiredHashes
  rw [List.filter_cons]
  split <;> rfl

theorem mem_expiredHashes {hash : Uint256} :
    hash ∈ expiredHashes env l ↔ ∃ mnb, (hash, mnb) ∈ l ∧ expired env mnb = true := by
  unfold expiredHashes
  rw [List.mem_map]
  constructor
  · rintro ⟨e, he, rfl⟩
    exact ⟨e.2, List.mem_filter.mp he⟩
  · rintro ⟨mnb, hmem, hexpired⟩
    exact ⟨(hash, mnb), List.mem_filter.mpr ⟨hmem, hexpired⟩, rfl⟩

theorem mem_keys_of_followers {prev : Bool} {hash : Uint256} (h : hash ∈ followers env prev l) :
    hash ∈ l.map Prod.fst := by
  induction l generalizing prev with
  | nil => cases h
  | cons e it3 ih =>
    obtain ⟨hash', mnb⟩ := e
    rw [followers] at h
    rcases List.mem_append.mp h with hfirst | hrest
    · split at hfirst
      · rw [List.mem_singleton.mp hfirst]
        exact List.mem_cons_self
      · cases hfirst
    · exact List.mem_cons_of_mem _ (ih hrest)

/-- The loop erases the expired records, and the hashes after them in the record of the sync. -/
theorem eraseExpired_eq (hfiled : ∀ e ∈ l, e.2.getHash orc = e.1) (s : Upkeep orc) :
    eraseExpired env l s =
      if endsExpired env false l then none
      else some { s with
        mapSeenMasternodeBroadcast :=
          (expiredHashes env l).foldl SeenBroadcasts.erase s.mapSeenMasternodeBroadcast
        mapSeenSyncMNB := s.mapSeenSyncMNB.eraseAll (followers env false l) } := by
  induction l generalizing s with
  | nil => rfl
  | cons e it3 ih =>
    obtain ⟨hash, mnb⟩ := e
    have hrest : ∀ e ∈ it3, e.2.getHash orc = e.1 := fun e he =>
      hfiled e (List.mem_cons_of_mem _ he)
    rw [eraseExpired.eq_def, endsExpired, followers, if_neg Bool.false_ne_true, List.nil_append]
    dsimp only
    cases hexpired : expired env mnb with
    | false =>
      rw [if_neg Bool.false_ne_true, ih hrest, expiredHashes_cons, hexpired,
        if_neg Bool.false_ne_true]
    | true =>
      rw [if_pos rfl, expiredHashes_cons, hexpired, if_pos rfl]
      cases it3 with
      | nil => rfl
      | cons next it3 =>
        obtain ⟨hash', mnb'⟩ := next
        have hhash : mnb'.getHash orc = hash' := hrest _ List.mem_cons_self
        dsimp only
        rw [ih hrest, hhash, endsExpired, endsExpired, followers, followers,
          if_neg Bool.false_ne_true, if_pos rfl, List.nil_append]
        rfl

theorem find_foldl_erase (hashes : List Uint256) (m : SeenBroadcasts orc) (hash : Uint256) :
    (hashes.foldl SeenBroadcasts.erase m).1.find hash =
      if hash ∈ hashes then none else m.1.find hash := by
  have hfold : (hashes.foldl SeenBroadcasts.erase m).1 = m.1.eraseAll hashes := by
    induction hashes generalizing m with
    | nil => rfl
    | cons first rest ih => exact ih (m.erase first)
  rw [hfold, Dict.find_eraseAll]

/-- The last record is not expired, and a record whose hash the record of the sync has is expired
exactly if the record before it is. -/
def Settled (env : Env) (mapSeenSyncMNB : Dict Uint256 ℤ) :
    Bool → List (Uint256 × CMasternodeBroadcast) → Prop
  | prev, [] => prev = false
  | prev, (hash, mnb) :: it3 =>
    (mapSeenSyncMNB.count hash = true → expired env mnb = prev) ∧
      Settled env mapSeenSyncMNB (expired env mnb) it3

/-- That is when the hashes that are dropped are those that should be. -/
theorem settled_iff {sync : Dict Uint256 ℤ} {prev : Bool} (hkeys : (l.map Prod.fst).Nodup) :
    Settled env sync prev l ↔ endsExpired env prev l = false ∧
      ∀ hash, sync.count hash = true →
        (hash ∈ followers env prev l ↔ hash ∈ expiredHashes env l) := by
  induction l generalizing prev with
  | nil => exact ⟨fun h => ⟨h, fun _ _ => Iff.rfl⟩, fun h => h.1⟩
  | cons e it3 ih =>
    obtain ⟨first, mnb⟩ := e
    obtain ⟨hnew, hrest⟩ := List.nodup_cons.mp hkeys
    have hfirst : first ∈ followers env prev ((first, mnb) :: it3) ↔ prev = true := by
      rw [followers, List.mem_append]
      constructor
      · rintro (h | h)
        · by_contra hprev
          rw [if_neg hprev] at h
          cases h
        · exact absurd (mem_keys_of_followers h) hnew
      · intro hprev
        rw [if_pos hprev]
        exact Or.inl List.mem_cons_self
    have hexpired : first ∈ expiredHashes env ((first, mnb) :: it3) ↔ expired env mnb = true := by
      rw [mem_expiredHashes]
      constructor
      · rintro ⟨mnb', hmem, h⟩
        rcases List.mem_cons.mp hmem with heq | hmem
        · cases heq
          exact h
        · exact absurd (List.mem_map.mpr ⟨_, hmem, rfl⟩) hnew
      · exact fun h => ⟨mnb, List.mem_cons_self, h⟩
    have hother : ∀ {hash}, hash ≠ first →
        ((hash ∈ followers env prev ((first, mnb) :: it3) ↔
          hash ∈ expiredHashes env ((first, mnb) :: it3)) ↔
        (hash ∈ followers env (expired env mnb) it3 ↔ hash ∈ expiredHashes env it3)) := by
      intro hash hne
      have hleft : hash ∈ followers env prev ((first, mnb) :: it3) ↔
          hash ∈ followers env (expired env mnb) it3 := by
        rw [followers, List.mem_append]
        refine or_iff_right fun h => ?_
        split at h
        · exact hne (List.mem_singleton.mp h)
        · cases h
      have hright : hash ∈ expiredHashes env ((first, mnb) :: it3) ↔
          hash ∈ expiredHashes env it3 := by
        rw [mem_expiredHashes, mem_expiredHashes]
        refine exists_congr fun mnb' => and_congr_left fun _ => ?_
        rw [List.mem_cons]
        exact or_iff_right fun heq => hne (congrArg Prod.fst heq)
      rw [hleft, hright]
    rw [Settled, endsExpired, ih hrest]
    constructor
    · rintro ⟨hthis, hends, hothers⟩
      refine ⟨hends, fun hash hsync => ?_⟩
      by_cases heq : hash = first
      · subst heq
        rw [hfirst, hexpired, hthis hsync]
      · exact (hother heq).2 (hothers hash hsync)
    · rintro ⟨hends, hall⟩
      refine ⟨fun hsync => ?_, hends, fun hash hsync => ?_⟩
      · have hiff := hall first hsync
        rw [hfirst, hexpired] at hiff
        exact (Bool.eq_iff_iff.2 hiff).symm
      · by_cases heq : hash = first
        · subst heq
          refine iff_of_false (fun h => hnew (mem_keys_of_followers h)) fun h => ?_
          obtain ⟨mnb', hmem, -⟩ := mem_expiredHashes.1 h
          exact hnew (List.mem_map.mpr ⟨_, hmem, rfl⟩)
        · exact (hother heq).1 (hall hash hsync)

end Expiry

section Result

variable {env : Env} {forceExpiredRemoval : Bool} {s s' : Upkeep orc}

/-- The broadcast has the input of an entry that is taken off the list. -/
def ofRemoved (env : Env) (forceExpiredRemoval : Bool) (s : Upkeep orc)
    (mnb : CMasternodeBroadcast) : Bool :=
  ((s.checkAll env).vMasternodes.filter (removable env forceExpiredRemoval)).any fun mn =>
    mnb.vin = mn.vin

/-- The records of the other broadcasts, by their hashes. -/
def remaining (env : Env) (forceExpiredRemoval : Bool) (s : Upkeep orc) :
    List (Uint256 × CMasternodeBroadcast) :=
  s.mapSeenMasternodeBroadcast.records.filter fun e => !ofRemoved env forceExpiredRemoval s e.2

/-- What goes is what is removable: the entries, the broadcasts of these entries and those that are
expired, and the hashes of these broadcasts. -/
structure Removes (env : Env) (forceExpiredRemoval : Bool) (s s' : Upkeep orc) : Prop where
  masternodes : s'.vMasternodes =
    (s.checkAll env).vMasternodes.filter fun mn => !removable env forceExpiredRemoval mn
  broadcasts : ∀ hash, s'.mapSeenMasternodeBroadcast.1.find hash =
    (s.mapSeenMasternodeBroadcast.1.find hash).filter fun mnb =>
      !(ofRemoved env forceExpiredRemoval s mnb || expired env mnb)
  sync : ∀ hash, s'.mapSeenSyncMNB.find hash =
    if ∃ mnb, s.mapSeenMasternodeBroadcast.1.find hash = some mnb ∧
      (ofRemoved env forceExpiredRemoval s mnb || expired env mnb) = true then none
    else s.mapSeenSyncMNB.find hash

/-- The state before the loop over the expired broadcasts. -/
def cleared (env : Env) (forceExpiredRemoval : Bool) (s : Upkeep orc) : Upkeep orc :=
  eraseRequests env (removeEntries env forceExpiredRemoval (s.checkAll env))

theorem drops_cleared (env : Env) (forceExpiredRemoval : Bool) (s : Upkeep orc) :
    Drops (fun hash => ∃ mnb, s.mapSeenMasternodeBroadcast.1.find hash = some mnb ∧
      ofRemoved env forceExpiredRemoval s mnb = true) s (cleared env forceExpiredRemoval s) := by
  have hdrops := drops_removed
    ((s.checkAll env).vMasternodes.filter (removable env forceExpiredRemoval)) (s.checkAll env)
  have hcleared : Drops (SeenFrom (s.checkAll env) _) s (cleared env forceExpiredRemoval s) :=
    ⟨hdrops.seen, hdrops.sync⟩
  refine hcleared.congr fun hash => exists_congr fun mnb => and_congr_right fun _ => ?_
  unfold ofRemoved
  rw [List.any_eq_true]
  exact exists_congr fun mn => and_congr_right fun _ => decide_eq_true_iff.symm

theorem records_cleared (env : Env) (forceExpiredRemoval : Bool) (s : Upkeep orc) :
    (cleared env forceExpiredRemoval s).mapSeenMasternodeBroadcast.records =
      remaining env forceExpiredRemoval s := by
  have hdrops := drops_cleared env forceExpiredRemoval s
  refine (Dict.eq_inOrder BitVec.toNat_injective ?_ fun hash mnb => ?_).symm
  · exact (Dict.inOrder_pairwise BitVec.toNat_injective _).filter _
  · unfold remaining
    rw [List.mem_filter, mem_records, Bool.not_eq_true']
    by_cases hgone : ∃ mnb, s.mapSeenMasternodeBroadcast.1.find hash = some mnb ∧
        ofRemoved env forceExpiredRemoval s mnb = true
    · rw [(hdrops.seen hash).1 hgone]
      obtain ⟨mnb', hfind', hof⟩ := hgone
      refine iff_of_false (fun h => ?_) nofun
      obtain rfl : mnb' = mnb := Option.some.inj (hfind'.symm.trans h.1)
      rw [hof] at h
      cases h.2
    · rw [(hdrops.seen hash).2 hgone]
      refine and_iff_left_of_imp fun hfind => ?_
      exact Bool.eq_false_iff.2 fun hof => hgone ⟨mnb, hfind, hof⟩

theorem mem_remaining {hash : Uint256} {mnb : CMasternodeBroadcast} :
    (hash, mnb) ∈ remaining env forceExpiredRemoval s ↔
      s.mapSeenMasternodeBroadcast.1.find hash = some mnb ∧
        ofRemoved env forceExpiredRemoval s mnb = false := by
  unfold remaining
  rw [List.mem_filter, mem_records, Bool.not_eq_true']

theorem nodup_remaining : ((remaining env forceExpiredRemoval s).map Prod.fst).Nodup := by
  rw [← records_cleared]
  exact List.pairwise_map.2 ((Dict.inOrder_pairwise BitVec.toNat_injective _).imp
    fun hlt heq => absurd hlt (by rw [heq]; exact lt_irrefl _))

/-- The state after the loop over the expired broadcasts. -/
def swept (env : Env) (forceExpiredRemoval : Bool) (s : Upkeep orc) : Upkeep orc :=
  { cleared env forceExpiredRemoval s with
    mapSeenMasternodeBroadcast := (expiredHashes env (remaining env forceExpiredRemoval s)).foldl
      SeenBroadcasts.erase (cleared env forceExpiredRemoval s).mapSeenMasternodeBroadcast
    mapSeenSyncMNB := (cleared env forceExpiredRemoval s).mapSeenSyncMNB.eraseAll
      (followers env false (remaining env forceExpiredRemoval s))
    mapSeenMasternodePing :=
      (cleared env forceExpiredRemoval s).mapSeenMasternodePing.eraseWhere fun mnp =>
        decide (mnp.sigTime < env.now - removalSeconds * 2) }

theorem checkAndRemove_eq (env : Env) (forceExpiredRemoval : Bool) (s : Upkeep orc) :
    checkAndRemove env forceExpiredRemoval s =
      if endsExpired env false (remaining env forceExpiredRemoval s) then none
      else some (swept env forceExpiredRemoval s) := by
  have hloop : eraseExpired env (remaining env forceExpiredRemoval s)
      (cleared env forceExpiredRemoval s) = _ :=
    eraseExpired_eq (fun e he => s.mapSeenMasternodeBroadcast.2 e.1 e.2 (mem_remaining.1 he).1)
      (cleared env forceExpiredRemoval s)
  unfold checkAndRemove
  change (eraseExpired env (cleared env forceExpiredRemoval s).mapSeenMasternodeBroadcast.records
    (cleared env forceExpiredRemoval s)).map _ = _
  rw [records_cleared, hloop]
  split <;> rfl

/-- A hash is expired among the remaining ones by what is recorded under it. -/
theorem mem_expiredHashes_remaining {hash : Uint256} {mnb : CMasternodeBroadcast}
    (hfind : s.mapSeenMasternodeBroadcast.1.find hash = some mnb) :
    hash ∈ expiredHashes env (remaining env forceExpiredRemoval s) ↔
      ofRemoved env forceExpiredRemoval s mnb = false ∧ expired env mnb = true := by
  rw [mem_expiredHashes]
  simp only [mem_remaining, hfind, Option.some.injEq, and_assoc, exists_eq_left']

theorem not_mem_expiredHashes_remaining {hash : Uint256}
    (hfind : s.mapSeenMasternodeBroadcast.1.find hash = none) :
    hash ∉ expiredHashes env (remaining env forceExpiredRemoval s) := by
  rw [mem_expiredHashes]
  rintro ⟨mnb, hmem, -⟩
  have hfind' := (mem_remaining.1 hmem).1
  rw [hfind] at hfind'
  cases hfind'

theorem broadcasts_swept (env : Env) (forceExpiredRemoval : Bool) (s : Upkeep orc)
    (hash : Uint256) :
    (swept env forceExpiredRemoval s).mapSeenMasternodeBroadcast.1.find hash =
      (s.mapSeenMasternodeBroadcast.1.find hash).filter fun mnb =>
        !(ofRemoved env forceExpiredRemoval s mnb || expired env mnb) := by
  have hdrops := (drops_cleared env forceExpiredRemoval s).seen hash
  refine (find_foldl_erase _ _ hash).trans ?_
  cases hfind : s.mapSeenMasternodeBroadcast.1.find hash with
  | none =>
    rw [if_neg (not_mem_expiredHashes_remaining hfind), hdrops.2 (by rw [hfind]; simp), hfind,
      Option.filter_none]
  | some mnb =>
    have hgone : (∃ mnb', s.mapSeenMasternodeBroadcast.1.find hash = some mnb' ∧
        ofRemoved env forceExpiredRemoval s mnb' = true) ↔
          ofRemoved env forceExpiredRemoval s mnb = true := by
      simp only [hfind, Option.some.injEq, exists_eq_left']
    have hexpired : hash ∈ expiredHashes env (remaining env forceExpiredRemoval s) ↔
        ofRemoved env forceExpiredRemoval s mnb = false ∧ expired env mnb = true :=
      mem_expiredHashes_remaining hfind
    rw [hgone] at hdrops
    cases hof : ofRemoved env forceExpiredRemoval s mnb with
    | true =>
      rw [hdrops.1 hof, Option.filter_some, hof]
      split <;> rfl
    | false =>
      rw [hof, eq_self_iff_true, true_and] at hexpired
      rw [hdrops.2 (by rw [hof]; exact Bool.false_ne_true), hfind, Option.filter_some, hof,
        Bool.false_or]
      cases hexp : expired env mnb with
      | true => rw [if_pos (hexpired.2 hexp)]; rfl
      | false => rw [if_neg (fun h => by rw [hexp] at hexpired; cases hexpired.1 h)]; rfl

theorem sync_swept (env : Env) (forceExpiredRemoval : Bool) (s : Upkeep orc) (hash : Uint256) :
    (swept env forceExpiredRemoval s).mapSeenSyncMNB.find hash =
      if hash ∈ followers env false (remaining env forceExpiredRemoval s) ∨
        ∃ mnb, s.mapSeenMasternodeBroadcast.1.find hash = some mnb ∧
          ofRemoved env forceExpiredRemoval s mnb = true then none
      else s.mapSeenSyncMNB.find hash := by
  have hdrops := (drops_cleared env forceExpiredRemoval s).sync hash
  refine (Dict.find_eraseAll _ _ hash).trans ?_
  by_cases hfollows : hash ∈ followers env false (remaining env forceExpiredRemoval s)
  · rw [if_pos hfollows, if_pos (Or.inl hfollows)]
  · rw [if_neg hfollows]
    by_cases hgone : ∃ mnb, s.mapSeenMasternodeBroadcast.1.find hash = some mnb ∧
        ofRemoved env forceExpiredRemoval s mnb = true
    · rw [hdrops.1 hgone, if_pos (Or.inr hgone)]
    · rw [hdrops.2 hgone, if_neg (not_or.2 ⟨hfollows, hgone⟩)]

/-- What is under a hash that is expired among the remaining ones has no removed entry. -/
theorem not_ofRemoved_of_mem {hash : Uint256}
    (h : hash ∈ (remaining env forceExpiredRemoval s).map Prod.fst) :
    ¬∃ mnb, s.mapSeenMasternodeBroadcast.1.find hash = some mnb ∧
      ofRemoved env forceExpiredRemoval s mnb = true := by
  obtain ⟨e, he, rfl⟩ := List.mem_map.1 h
  obtain ⟨hfind, hof⟩ := mem_remaining.1 he
  rintro ⟨mnb, hfind', hof'⟩
  obtain rfl : e.2 = mnb := Option.some.inj (hfind.symm.trans hfind')
  rw [hof] at hof'
  cases hof'

theorem removes_hash_iff {hash : Uint256} :
    (∃ mnb, s.mapSeenMasternodeBroadcast.1.find hash = some mnb ∧
        (ofRemoved env forceExpiredRemoval s mnb || expired env mnb) = true) ↔
      hash ∈ expiredHashes env (remaining env forceExpiredRemoval s) ∨
        ∃ mnb, s.mapSeenMasternodeBroadcast.1.find hash = some mnb ∧
          ofRemoved env forceExpiredRemoval s mnb = true := by
  cases hfind : s.mapSeenMasternodeBroadcast.1.find hash with
  | none =>
    simp only [reduceCtorEq, false_and, exists_false, or_false, false_iff]
    exact not_mem_expiredHashes_remaining hfind
  | some mnb =>
    have hexpired : hash ∈ expiredHashes env (remaining env forceExpiredRemoval s) ↔
        ofRemoved env forceExpiredRemoval s mnb = false ∧ expired env mnb = true :=
      mem_expiredHashes_remaining hfind
    simp only [hexpired, Option.some.injEq, exists_eq_left', Bool.or_eq_true]
    cases ofRemoved env forceExpiredRemoval s mnb <;> simp

theorem ite_none_eq_iff {α : Type*} {x : Option α} {p q : Prop} [Decidable p] [Decidable q] :
    ((if p then none else x) = if q then none else x) ↔ (x.isSome = true → (p ↔ q)) := by
  cases x with
  | none => simp
  | some v => by_cases hp : p <;> by_cases hq : q <;> simp [hp, hq]

/-- The loop leaves the record of the sync as it should exactly if the hashes it drops, those after
the expired ones, are the expired ones as far as the record has them. -/
theorem sync_removes_iff : (∀ hash, (swept env forceExpiredRemoval s).mapSeenSyncMNB.find hash =
      if ∃ mnb, s.mapSeenMasternodeBroadcast.1.find hash = some mnb ∧
        (ofRemoved env forceExpiredRemoval s mnb || expired env mnb) = true then none
      else s.mapSeenSyncMNB.find hash) ↔
    ∀ hash, s.mapSeenSyncMNB.count hash = true →
      (hash ∈ followers env false (remaining env forceExpiredRemoval s) ↔
        hash ∈ expiredHashes env (remaining env forceExpiredRemoval s)) := by
  refine forall_congr' fun hash => ?_
  rw [sync_swept, ite_none_eq_iff]
  refine imp_congr_right fun _ => ?_
  rw [removes_hash_iff]
  have hfollows : hash ∈ followers env false (remaining env forceExpiredRemoval s) →
      ¬∃ mnb, s.mapSeenMasternodeBroadcast.1.find hash = some mnb ∧
        ofRemoved env forceExpiredRemoval s mnb = true :=
    fun h => not_ofRemoved_of_mem (mem_keys_of_followers h)
  have hexpired : hash ∈ expiredHashes env (remaining env forceExpiredRemoval s) →
      ¬∃ mnb, s.mapSeenMasternodeBroadcast.1.find hash = some mnb ∧
        ofRemoved env forceExpiredRemoval s mnb = true := by
    intro h
    obtain ⟨mnb, hmem, -⟩ := mem_expiredHashes.1 h
    exact not_ofRemoved_of_mem (List.mem_map.2 ⟨_, hmem, rfl⟩)
  by_cases hgone : ∃ mnb, s.mapSeenMasternodeBroadcast.1.find hash = some mnb ∧
      ofRemoved env forceExpiredRemoval s mnb = true
  · exact iff_of_true (iff_of_true (Or.inr hgone) (Or.inr hgone))
      (iff_of_false (fun h => hfollows h hgone) fun h => hexpired h hgone)
  · rw [or_iff_left hgone, or_iff_left hgone]

/-- The upkeep ends, with what it should remove removed, exactly if the remaining broadcasts are
settled: none is expired where the record before it is not, nor the last one. -/
theorem checkAndRemove_removes_iff (env : Env) (forceExpiredRemoval : Bool) (s : Upkeep orc) :
    (∃ s', checkAndRemove env forceExpiredRemoval s = some s' ∧
        Removes env forceExpiredRemoval s s') ↔
      Settled env s.mapSeenSyncMNB false (remaining env forceExpiredRemoval s) := by
  rw [settled_iff nodup_remaining, ← sync_removes_iff, checkAndRemove_eq]
  constructor
  · rintro ⟨s', hrun, hremoves⟩
    split at hrun
    · cases hrun
    · next hends =>
      cases hrun
      exact ⟨Bool.eq_false_iff.2 hends, hremoves.sync⟩
  · rintro ⟨hends, hsync⟩
    refine ⟨_, if_neg (Bool.eq_false_iff.1 hends), ?_⟩
    exact { masternodes := rfl, broadcasts := broadcasts_swept env _ s, sync := hsync }

end Result

section Samples

def sampleUpkeep (seen : SeenBroadcasts sampleNames) (hashes : List Uint256) :
    Upkeep sampleNames where
  vMasternodes := []
  mapSeenMasternodeBroadcast := seen
  mapSeenMasternodePing := .empty
  mAskedUsForMasternodeList := .empty
  mWeAskedForMasternodeList := .empty
  mWeAskedForMasternodeListEntry := .empty
  mapSeenSyncMNB := .insertAll .empty hashes 1

def seenWith (seen : SeenBroadcasts orc) (mnb : CMasternodeBroadcast) : SeenBroadcasts orc :=
  ⟨seen.1.set (mnb.getHash orc) mnb, fun hash mnb' h => by
    obtain ⟨rfl, rfl⟩ | ⟨-, h⟩ := Dict.find_set_cases h
    · rfl
    · exact seen.2 hash mnb' h⟩

def noneSeen : SeenBroadcasts orc := ⟨.empty, fun _ _ h => by cases h⟩

/-- The last ping of the first announcement is from when it was made, that of the next one from an
hour later. Three weeks on, the first has expired alone. -/
def sampleStale : CMasternodeBroadcast := { sampleBroadcast with lastPing := samplePing }

def sampleFresh : CMasternodeBroadcast := { sampleRenewal with
  lastPing := ⟨sampleVin 50, 9, 1601814400, [1]⟩ }

def staleAndFresh : Upkeep sampleNames :=
  sampleUpkeep (seenWith (seenWith noneSeen sampleStale) sampleFresh) [1600000000, 1600003600]

/-- With the expired broadcast alone the loop reads past the end of the map. With a live one after
it the hash of the live one is dropped, and that of the expired one stays. -/
theorem expired_before_live :
    checkAndRemove (sampleEnv 1601814400) false
      (sampleUpkeep (seenWith noneSeen sampleStale) [1600000000]) = none ∧
    (checkAndRemove (sampleEnv 1601814400) false staleAndFresh).map (fun s =>
      (s.mapSeenMasternodeBroadcast.1.count 1600000000, s.mapSeenSyncMNB.count 1600000000,
        s.mapSeenMasternodeBroadcast.1.count 1600003600, s.mapSeenSyncMNB.find 1600003600)) =
      some (false, true, true, none) ∧
    ¬∃ s', checkAndRemove (sampleEnv 1601814400) false staleAndFresh = some s' ∧
      Removes (sampleEnv 1601814400) false staleAndFresh s' := by
  have hrun : (checkAndRemove (sampleEnv 1601814400) false staleAndFresh).map (fun s =>
      (s.mapSeenMasternodeBroadcast.1.count 1600000000, s.mapSeenSyncMNB.count 1600000000,
        s.mapSeenMasternodeBroadcast.1.count 1600003600, s.mapSeenSyncMNB.find 1600003600)) =
      some (false, true, true, none) := by decide
  refine ⟨by decide, hrun, ?_⟩
  rintro ⟨s', hs', hremoves⟩
  rw [hs'] at hrun
  have hdropped : s'.mapSeenSyncMNB.find 1600003600 = none := by
    have htuple := Option.some.inj hrun
    simp only [Prod.mk.injEq] at htuple
    exact htuple.2.2.2
  have hseen : staleAndFresh.mapSeenMasternodeBroadcast.1.find 1600003600 = some sampleFresh := by
    decide
  have hstays := hremoves.sync 1600003600
  rw [hdropped, if_neg] at hstays
  · revert hstays
    decide
  · rintro ⟨mnb, hfind, hgoes⟩
    obtain rfl : sampleFresh = mnb := Option.some.inj (hseen.symm.trans hfind)
    revert hgoes
    decide

end Samples

end Upkeep

end Scrypta.Masternodes
