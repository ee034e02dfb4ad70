import Scrypta.BudgetSync

/-! A full sync offers the live budget items and the node can serve what it offers, in the runs
in which the maps of seen messages keep up with the live items: no clearing while there are
items, and no item matures whose message is not among the seen ones. -/

namespace Scrypta.Budget

open Spork Runs

section Ballots

variable {τ ν : Type} {k : SyncKind τ ν} {env : Env}

/-- What the flags leave alone. -/
structure SyncKind.Lawful (k : SyncKind τ ν) (key : ν → Uint256) : Prop where
  broadcast_votes : ∀ t, k.mapVotes (k.broadcast t) = .empty
  setTime_votes : ∀ t n, k.mapVotes (k.setTime t n) = k.mapVotes t
  setTime_hash : ∀ t n, k.getHash (k.setTime t n) = k.getHash t
  isValid_votes : ∀ {env t t'}, k.isValid env t = some (.ok t') → k.mapVotes t' = k.mapVotes t
  isValid_hash : ∀ {env t t'}, k.isValid env t = some (.ok t') → k.getHash t' = k.getHash t
  update_votes : ∀ {now t t'} {v : ν}, k.addOrUpdateVote now t v = .ok t' →
    k.mapVotes t' = (k.mapVotes t).set (key v) v
  update_hash : ∀ {now t t'} {v : ν}, k.addOrUpdateVote now t v = .ok t' →
    k.getHash t' = k.getHash t
  setValid_votes : ∀ t b, k.mapVotes (k.setValid t b) = k.mapVotes t
  setValid_hash : ∀ t b, k.getHash (k.setValid t b) = k.getHash t
  setVotes_votes : ∀ t m, k.mapVotes (k.setVotes t m) = m
  setVotes_hash : ∀ t m, k.getHash (k.setVotes t m) = k.getHash t
  setVoteValid_hash : ∀ v b, k.voteHash (k.setVoteValid v b) = k.voteHash v

/-- The live items as a sync has to offer them. -/
def Ballot.liveItems (k : SyncKind τ ν) (b : Ballot τ ν) (target vote : Uint256 → CInv) :
    List CInv :=
  b.targets.toList.flatMap fun e =>
    if k.fValid e.2 then k.offers target vote (k.getHash e.2) e.2 else []

/-- The seen messages cover the live items, the votes on them and the votes that wait. -/
structure Aligned (k : SyncKind τ ν) (b : Ballot τ ν) : Prop where
  seenKeyed : ∀ h t, b.seen.find h = some t → k.getHash t = h
  keyed : ∀ h t, b.targets.find h = some t → k.getHash t = h
  seen : ∀ h t, b.targets.find h = some t → b.seen.count h = true
  votes : ∀ h t key v, b.targets.find h = some t → (k.mapVotes t).find key = some v →
    b.seenVotes.count (k.voteHash v) = true
  orphans : ∀ h v, b.orphanVotes.find h = some v → b.seenVotes.count (k.voteHash v) = true
  immature : ∀ t ∈ b.immature, k.mapVotes t = .empty

theorem aligned_empty (k : SyncKind τ ν) : Aligned k .empty where
  seenKeyed _ _ h := nomatch h
  keyed _ _ h := nomatch h
  seen _ _ h := nomatch h
  votes _ _ _ _ h := nomatch h
  orphans _ _ h := nomatch h
  immature _ h := nomatch h

variable {b : Ballot τ ν} {target vote : Uint256 → CInv}

theorem mem_sync {inv : CInv} : inv ∈ b.sync k 0 target vote ↔
    ∃ h s t, b.seen.find h = some s ∧ b.targets.find h = some t ∧ k.fValid t = true ∧
      inv ∈ k.offers target vote (k.getHash s) t := by
  unfold Ballot.sync
  rw [List.mem_flatMap]
  constructor
  · rintro ⟨⟨h, s⟩, he, hinv⟩
    cases ht : b.targets.find h with
    | none =>
      simp only [ht] at hinv
      exact absurd hinv List.not_mem_nil
    | some t =>
      simp only [ht] at hinv
      split at hinv
      · next hvalid =>
        exact ⟨h, s, t, Dict.mem_toList.mp he, ht, (Bool.and_eq_true_iff.mp hvalid).1, hinv⟩
      · exact absurd hinv List.not_mem_nil
  · rintro ⟨h, s, t, hs, ht, hvalid, hinv⟩
    refine ⟨(h, s), Dict.mem_toList.mpr hs, ?_⟩
    simp only [ht, hvalid]
    exact hinv

theorem mem_liveItems {inv : CInv} : inv ∈ b.liveItems k target vote ↔
    ∃ h t, b.targets.find h = some t ∧ k.fValid t = true ∧
      inv ∈ k.offers target vote (k.getHash t) t := by
  unfold Ballot.liveItems
  rw [List.mem_flatMap]
  constructor
  · rintro ⟨⟨h, t⟩, he, hinv⟩
    split at hinv
    · next hvalid => exact ⟨h, t, Dict.mem_toList.mp he, hvalid, hinv⟩
    · exact absurd hinv List.not_mem_nil
  · rintro ⟨h, t, ht, hvalid, hinv⟩
    refine ⟨(h, t), Dict.mem_toList.mpr ht, ?_⟩
    rw [if_pos hvalid]
    exact hinv

theorem Aligned.mem_sync_iff (h : Aligned k b) (inv : CInv) :
    inv ∈ b.sync k 0 target vote ↔ inv ∈ b.liveItems k target vote := by
  rw [mem_sync, mem_liveItems]
  constructor
  · rintro ⟨hash, s, t, hs, ht, hvalid, hinv⟩
    rw [h.seenKeyed hash s hs, ← h.keyed hash t ht] at hinv
    exact ⟨hash, t, ht, hvalid, hinv⟩
  · rintro ⟨hash, t, ht, hvalid, hinv⟩
    obtain ⟨s, hs⟩ := Dict.count_eq_true.mp (h.seen hash t ht)
    rw [h.keyed hash t ht, ← h.seenKeyed hash s hs] at hinv
    exact ⟨hash, s, t, hs, ht, hvalid, hinv⟩

/-- What is offered is among the seen messages. -/
theorem Aligned.served (h : Aligned k b) {inv : CInv} (hinv : inv ∈ b.sync k 0 target vote) :
    (∃ hash, inv = target hash ∧ b.seen.count hash = true) ∨
      ∃ hash, inv = vote hash ∧ b.seenVotes.count hash = true := by
  obtain ⟨hash, s, t, hs, ht, hvalid, hinv⟩ := mem_sync.mp hinv
  rw [SyncKind.offers, List.mem_cons] at hinv
  rcases hinv with rfl | hinv
  · refine Or.inl ⟨k.getHash s, rfl, ?_⟩
    rw [h.seenKeyed hash s hs]
    exact Dict.count_eq_true.mpr ⟨s, hs⟩
  · obtain ⟨⟨key, v⟩, he, rfl⟩ := List.mem_map.mp hinv
    exact Or.inr ⟨k.voteHash v, rfl,
      h.votes hash t key v ht (Dict.mem_toList.mp (List.mem_filter.mp he).1)⟩

/-! What keeps the maps aligned. -/

theorem count_insert_of_count {m : Dict Uint256 τ} {key key' : Uint256} (t : τ)
    (h : m.count key' = true) : (m.insert key t).count key' = true := by
  obtain ⟨t', ht'⟩ := Dict.count_eq_true.mp h
  exact Dict.count_eq_true.mpr ⟨t', Dict.find_insert_of_some t ht'⟩

/-- A message is seen. -/
theorem Aligned.insertSeen (h : Aligned k b) {key : Uint256} {t : τ} (hhash : k.getHash t = key) :
    Aligned k { b with seen := b.seen.insert key t } where
  seenKeyed hash s hs := by
    cases hfind : b.seen.find key with
    | some w =>
      rw [Dict.insert_of_some t hfind] at hs
      exact h.seenKeyed hash s hs
    | none =>
      rw [Dict.find_insert_of_none t hfind] at hs
      split at hs
      · next heq =>
        obtain rfl := Option.some.inj hs
        exact hhash.trans heq.symm
      · exact h.seenKeyed hash s hs
  keyed := h.keyed
  seen hash s hs := count_insert_of_count t (h.seen hash s hs)
  votes := h.votes
  orphans := h.orphans
  immature := h.immature

theorem Aligned.insertSeenVote (h : Aligned k b) (key : Uint256) (v : ν) :
    Aligned k { b with seenVotes := b.seenVotes.insert key v } where
  seenKeyed := h.seenKeyed
  keyed := h.keyed
  seen := h.seen
  votes hash t key' w ht hw := count_insert_of_count v (h.votes hash t key' w ht hw)
  orphans hash w hw := count_insert_of_count v (h.orphans hash w hw)
  immature := h.immature

/-- A target is added or replaced. -/
theorem Aligned.setTarget (h : Aligned k b) {key : Uint256} {t : τ} (hhash : k.getHash t = key)
    (hseen : b.seen.count key = true)
    (hvotes : ∀ vk v, (k.mapVotes t).find vk = some v →
      b.seenVotes.count (k.voteHash v) = true) :
    Aligned k { b with targets := b.targets.set key t } where
  seenKeyed := h.seenKeyed
  keyed hash s hs := by
    rcases Dict.find_set_cases hs with ⟨rfl, rfl⟩ | ⟨_, hs⟩
    · exact hhash
    · exact h.keyed hash s hs
  seen hash s hs := by
    rcases Dict.find_set_cases hs with ⟨rfl, rfl⟩ | ⟨_, hs⟩
    · exact hseen
    · exact h.seen hash s hs
  votes hash s vk v hs hv := by
    rcases Dict.find_set_cases hs with ⟨rfl, rfl⟩ | ⟨_, hs⟩
    · exact hvotes vk v hv
    · exact h.votes hash s vk v hs hv
  orphans := h.orphans
  immature := h.immature

theorem Aligned.setOrphan (h : Aligned k b) (key : Uint256) {v : ν}
    (hseen : b.seenVotes.count (k.voteHash v) = true) :
    Aligned k { b with orphanVotes := b.orphanVotes.set key v } :=
  { h with
    orphans := fun hash w hw => by
      rcases Dict.find_set_cases hw with ⟨rfl, rfl⟩ | ⟨_, hw⟩
      · exact hseen
      · exact h.orphans hash w hw }

theorem Aligned.eraseOrphan (h : Aligned k b) (key : Uint256) :
    Aligned k { b with orphanVotes := b.orphanVotes.erase key } :=
  { h with
    orphans := fun hash w hw => by
      rw [Dict.find_erase] at hw
      split at hw
      · cases hw
      · exact h.orphans hash w hw }

theorem Aligned.appendImmature (h : Aligned k b) {l : List τ}
    (hl : ∀ t ∈ l, k.mapVotes t = .empty) :
    Aligned k { b with immature := b.immature ++ l } :=
  { h with
    immature := fun t ht => (List.mem_append.mp ht).elim (h.immature t) (hl t) }

variable {key : ν → Uint256} (hk : k.Lawful key)
include hk

theorem Aligned.applyVote (h : Aligned k b) (env : Env) {v : ν}
    (hseen : b.seenVotes.count (k.voteHash v) = true) {b' : Ballot τ ν}
    (hb' : b.applyVote k.toKind env v = some b') : Aligned k b' := by
  obtain ⟨t, ht, hb'⟩ := Option.bind_eq_some_iff.mp hb'
  obtain ⟨t', ht', rfl⟩ := Option.map_eq_some_iff.mp hb'
  have hok : k.addOrUpdateVote env.now t v = .ok t' := by
    cases hr : k.addOrUpdateVote env.now t v with
    | error e =>
      rw [hr] at ht'
      cases ht'
    | ok u =>
      rw [hr] at ht'
      exact congrArg Except.ok (Option.some.inj ht')
  refine h.setTarget ((hk.update_hash hok).trans (h.keyed _ t ht)) (h.seen _ t ht) ?_
  intro vk w hw
  rw [hk.update_votes hok] at hw
  rcases Dict.find_set_cases hw with ⟨rfl, rfl⟩ | ⟨_, hw⟩
  · exact hseen
  · exact h.votes _ t vk w ht hw

theorem Aligned.checkOrphan (h : Aligned k b) (env : Env) {e : Uint256 × ν}
    (hseen : b.seenVotes.count (k.voteHash e.2) = true) :
    Aligned k (Ballot.checkOrphan k.toKind env b e) ∧
      (Ballot.checkOrphan k.toKind env b e).seenVotes = b.seenVotes := by
  unfold Ballot.checkOrphan
  split
  · next b' hb' =>
    refine ⟨(h.applyVote hk env hseen hb').eraseOrphan e.1, ?_⟩
    obtain ⟨t, _, hb'⟩ := Option.bind_eq_some_iff.mp hb'
    obtain ⟨t', _, rfl⟩ := Option.map_eq_some_iff.mp hb'
    rfl
  · exact ⟨h, rfl⟩

theorem Aligned.checkOrphanVotes (h : Aligned k b) :
    Aligned k (b.checkOrphanVotes k.toKind env) := by
  have hall : ∀ l : List (Uint256 × ν),
      (∀ e ∈ l, b.seenVotes.count (k.voteHash e.2) = true) → ∀ c : Ballot τ ν, Aligned k c →
        c.seenVotes = b.seenVotes → Aligned k (l.foldl (Ballot.checkOrphan k.toKind env) c) := by
    intro l
    induction l with
    | nil => exact fun _ c hc _ => hc
    | cons e l ih =>
      intro hl c hc hsame
      obtain ⟨hstep, hvotes⟩ := hc.checkOrphan hk env (e := e)
        (by rw [hsame]; exact hl e List.mem_cons_self)
      exact ih (fun e' he' => hl e' (List.mem_cons_of_mem _ he')) _ hstep (hvotes.trans hsame)
  exact hall _ (fun e he => h.orphans e.1 e.2 (Dict.mem_toList.mp he)) b h rfl

theorem Aligned.add (h : Aligned k b) {t : τ} (hvotes : k.mapVotes t = .empty)
    (hseen : b.seen.count (k.getHash t) = true) {r : Ballot τ ν × Bool}
    (hr : b.add k.toKind env t = some r) : Aligned k r.1 := by
  obtain ⟨valid, hvalid, rfl⟩ := Option.map_eq_some_iff.mp hr
  cases valid with
  | error e => exact h
  | ok t' =>
    simp only
    split
    · exact h
    · refine h.setTarget rfl (by rwa [hk.isValid_hash hvalid]) fun vk v hv => ?_
      rw [hk.isValid_votes hvalid, hvotes, Dict.find_empty] at hv
      cases hv

theorem withTime_votes (t : τ) (nTime : Option ℤ) :
    k.mapVotes ((nTime.map (k.setTime t)).getD t) = k.mapVotes t := by
  cases nTime with
  | none => rfl
  | some n => exact hk.setTime_votes t n

theorem withTime_hash (t : τ) (nTime : Option ℤ) :
    k.getHash ((nTime.map (k.setTime t)).getD t) = k.getHash t := by
  cases nTime with
  | none => rfl
  | some n => exact hk.setTime_hash t n

omit hk in
theorem count_insert_key {m : Dict Uint256 τ} (key : Uint256) (t : τ) :
    (m.insert key t).count key = true := by
  rw [Dict.count_eq_true, Dict.find_insert, if_pos rfl]
  exact ⟨_, rfl⟩

theorem Aligned.processTarget (h : Aligned k b) {t : τ} (hvotes : k.mapVotes t = .empty)
    {r : Ballot τ ν × List Effect × Bool} (hr : b.processTarget k.toKind env t = some r) :
    Aligned k r.1 := by
  unfold Ballot.processTarget at hr
  simp only at hr
  split at hr
  · obtain rfl := Option.some.inj hr
    exact h
  · split at hr
    · obtain rfl := Option.some.inj hr
      refine h.appendImmature fun u hu => ?_
      split at hu
      · obtain rfl := List.mem_singleton.mp hu
        exact (withTime_votes hk t _).trans hvotes
      · cases hu
    · have hinserted := h.insertSeen (withTime_hash hk t
        (isBudgetCollateralValid env (k.nFeeTXHash t) (k.getHash t)).nTime)
      obtain ⟨valid, hvalid, hr⟩ := Option.bind_eq_some_iff.mp hr
      cases valid with
      | error e =>
        obtain rfl := Option.some.inj hr
        exact hinserted
      | ok t' =>
        obtain ⟨r', hr', rfl⟩ := Option.map_eq_some_iff.mp hr
        refine hinserted.add hk ?_ ?_ hr'
        · exact (hk.isValid_votes hvalid).trans ((withTime_votes hk t _).trans hvotes)
        · rw [hk.isValid_hash hvalid, withTime_hash hk]
          exact count_insert_key _ _

theorem Aligned.processVote (h : Aligned k b) (asked : Dict Uint256 ℤ) (v : ν) :
    Aligned k (b.processVote k.toKind env asked v).1 := by
  have hinserted := h.insertSeenVote (k.voteHash v) v
  have hcount : (b.seenVotes.insert (k.voteHash v) v).count (k.voteHash v) = true :=
    count_insert_key _ _
  unfold Ballot.processVote
  simp only
  split
  · exact h
  · split
    · exact h
    · split
      · exact hinserted
      · unfold Ballot.updateTarget
        split
        · split
          · next b' hb' => exact hinserted.applyVote hk env hcount hb'
          · exact hinserted
        · split
          · exact hinserted
          · simp only
            split
            · exact hinserted.setOrphan _ hcount
            · exact hinserted.setOrphan _ hcount

theorem Aligned.castVote (h : Aligned k b) (v : ν) : Aligned k (b.castVote k env v) := by
  unfold Ballot.castVote
  split
  · next b' hb' =>
    obtain ⟨t, ht, hb'⟩ := Option.bind_eq_some_iff.mp hb'
    obtain ⟨t', ht', rfl⟩ := Option.map_eq_some_iff.mp hb'
    -- the vote is recorded after it is cast; the order makes no difference
    refine (h.insertSeenVote (k.voteHash v) v).applyVote hk env (count_insert_key _ _) ?_
    unfold Ballot.applyVote
    simp only [ht, Option.bind_some, ht', Option.map_some]
  · exact h

theorem Aligned.cleanVotes (h : Aligned k b) : Aligned k (b.cleanVotes k env) where
  seenKeyed := h.seenKeyed
  keyed hash t ht := by
    rw [Ballot.cleanVotes, Dict.find_mapValues] at ht
    obtain ⟨t₀, ht₀, rfl⟩ := Option.map_eq_some_iff.mp ht
    exact (hk.setVotes_hash _ _).trans (h.keyed hash t₀ ht₀)
  seen hash t ht := by
    rw [Ballot.cleanVotes, Dict.find_mapValues] at ht
    obtain ⟨t₀, ht₀, rfl⟩ := Option.map_eq_some_iff.mp ht
    exact h.seen hash t₀ ht₀
  votes hash t vk v ht hv := by
    rw [Ballot.cleanVotes, Dict.find_mapValues] at ht
    obtain ⟨t₀, ht₀, rfl⟩ := Option.map_eq_some_iff.mp ht
    rw [SyncKind.cleanAndRemove, hk.setVotes_votes, Dict.find_mapValues] at hv
    obtain ⟨v₀, hv₀, rfl⟩ := Option.map_eq_some_iff.mp hv
    rw [hk.setVoteValid_hash]
    exact h.votes hash t₀ vk v₀ ht₀ hv₀
  orphans := h.orphans
  immature := h.immature

theorem Aligned.revalidate (h : Aligned k b) {hash : Uint256} {b' : Ballot τ ν}
    (hb' : b.revalidate k env hash = some b') : Aligned k b' := by
  unfold Ballot.revalidate at hb'
  split at hb'
  · obtain rfl := Option.some.inj hb'
    exact h
  · next t ht =>
    obtain ⟨valid, hvalid, rfl⟩ := Option.map_eq_some_iff.mp hb'
    cases valid with
    | ok t' =>
      refine h.setTarget ?_ (h.seen hash t ht) fun vk v hv => ?_
      · rw [hk.setValid_hash, hk.isValid_hash hvalid, h.keyed hash t ht]
      · rw [hk.setValid_votes, hk.isValid_votes hvalid] at hv
        exact h.votes hash t vk v ht hv
    | error e =>
      refine h.setTarget ?_ (h.seen hash t ht) fun vk v hv => ?_
      · rw [hk.setValid_hash, h.keyed hash t ht]
      · rw [hk.setValid_votes] at hv
        exact h.votes hash t vk v ht hv

omit hk in
/-- A fold of partial steps keeps what each step keeps. -/
theorem foldlM_invariant {σ α : Type} {f : σ → α → Option σ} {I : σ → Prop} {l : List α}
    (hstep : ∀ s s', ∀ a ∈ l, I s → f s a = some s' → I s') {s s' : σ} (hs : I s)
    (h : l.foldlM f s = some s') : I s' := by
  induction l generalizing s with
  | nil =>
    obtain rfl := Option.some.inj h
    exact hs
  | cons a l ih =>
    rw [List.foldlM_cons] at h
    obtain ⟨t, ht, h⟩ := Option.bind_eq_some_iff.mp h
    exact ih (fun s s' a' ha' => hstep s s' a' (List.mem_cons_of_mem _ ha'))
      (hstep s t a List.mem_cons_self hs ht) h

omit hk in
/-- The collateral of the item is confirmed and the item is valid. -/
def Matures (k : Kind τ ν) (env : Env) (t : τ) : Prop :=
  let collateral := isBudgetCollateralValid env (k.nFeeTXHash t) (k.getHash t)
  collateral.fValid = true ∧
    ∃ t', k.isValid env ((collateral.nTime.map (k.setTime t)).getD t) = some (.ok t')

theorem Aligned.mature (h : Aligned k b) {t : τ} (hvotes : k.mapVotes t = .empty)
    (hseen : Matures k.toKind env t → b.seen.count (k.getHash t) = true) {b' : Ballot τ ν}
    (hb' : b.mature k env t = some b') : Aligned k b' ∧ b'.seen = b.seen := by
  unfold Ballot.mature at hb'
  simp only at hb'
  split at hb'
  · obtain rfl := Option.some.inj hb'
    refine ⟨h.appendImmature fun u hu => ?_, rfl⟩
    obtain rfl := List.mem_singleton.mp hu
    exact (withTime_votes hk t _).trans hvotes
  · next hcol =>
    obtain ⟨valid, hvalid, hb'⟩ := Option.bind_eq_some_iff.mp hb'
    cases valid with
    | error e =>
      obtain rfl := Option.some.inj hb'
      exact ⟨h, rfl⟩
    | ok t' =>
      obtain ⟨r, hr, rfl⟩ := Option.map_eq_some_iff.mp hb'
      have hcount : b.seen.count (k.getHash t') = true := by
        rw [hk.isValid_hash hvalid, withTime_hash hk]
        exact hseen ⟨by simpa using hcol, t', hvalid⟩
      refine ⟨h.add hk ?_ hcount hr, ?_⟩
      · exact (hk.isValid_votes hvalid).trans ((withTime_votes hk t _).trans hvotes)
      · obtain ⟨valid, -, rfl⟩ := Option.map_eq_some_iff.mp hr
        cases valid with
        | error e => rfl
        | ok t'' =>
          simp only
          split
          · rfl
          · rfl

theorem Aligned.matureAll (h : Aligned k b)
    (hseen : ∀ t ∈ b.immature, Matures k.toKind env t → b.seen.count (k.getHash t) = true)
    {b' : Ballot τ ν} (hb' : b.matureAll k env = some b') : Aligned k b' := by
  have hstart : Aligned k { b with immature := [] } :=
    { h with immature := fun _ ht => absurd ht List.not_mem_nil }
  have hall := foldlM_invariant (I := fun c : Ballot τ ν => Aligned k c ∧ c.seen = b.seen)
    (fun c c' t ht hc hstep => by
      obtain ⟨hc, hsame⟩ := hc
      have hnext := hc.mature hk (h.immature t ht)
        (fun hm => by rw [hsame]; exact hseen t ht hm) hstep
      exact ⟨hnext.1, hnext.2.trans hsame⟩) ⟨hstart, rfl⟩ hb'
  exact hall.1

end Ballots

section Stages

variable {τ ν : Type} {k : SyncKind τ ν} {env : Env}

/-- The stages between the clearing and the maturing leave these two alone. -/
def SameSeen (b b' : Ballot τ ν) : Prop := b'.seen = b.seen ∧ b'.immature = b.immature

theorem SameSeen.refl (b : Ballot τ ν) : SameSeen b b := ⟨rfl, rfl⟩

theorem SameSeen.trans {a b c : Ballot τ ν} (hab : SameSeen a b) (hbc : SameSeen b c) :
    SameSeen a c :=
  ⟨hbc.1.trans hab.1, hbc.2.trans hab.2⟩

theorem sameSeen_castVote (b : Ballot τ ν) (v : ν) : SameSeen b (b.castVote k env v) := by
  unfold Ballot.castVote
  split
  · next b' hb' =>
    obtain ⟨t, -, hb'⟩ := Option.bind_eq_some_iff.mp hb'
    obtain ⟨t', -, rfl⟩ := Option.map_eq_some_iff.mp hb'
    exact ⟨rfl, rfl⟩
  · exact .refl b

theorem sameSeen_revalidate {b b' : Ballot τ ν} {hash : Uint256}
    (h : b.revalidate k env hash = some b') : SameSeen b b' := by
  unfold Ballot.revalidate at h
  split at h
  · obtain rfl := Option.some.inj h
    exact .refl b
  · obtain ⟨valid, -, rfl⟩ := Option.map_eq_some_iff.mp h
    cases valid with
    | ok t => exact ⟨rfl, rfl⟩
    | error e => exact ⟨rfl, rfl⟩

/-- Nothing is live and no vote waits. -/
structure Ballot.Bare (b : Ballot τ ν) : Prop where
  targets : ∀ h, b.targets.find h = none
  orphanVotes : ∀ h, b.orphanVotes.find h = none

theorem Aligned.clearSeen {b : Ballot τ ν} (h : Aligned k b) (hbare : b.Bare) :
    Aligned k b.clearSeen where
  seenKeyed _ _ hs := nomatch hs
  keyed := h.keyed
  seen hash _ ht := nomatch (hbare.targets hash).symm.trans ht
  votes hash _ _ _ ht := nomatch (hbare.targets hash).symm.trans ht
  orphans hash _ hv := nomatch (hbare.orphanVotes hash).symm.trans hv
  immature := h.immature

end Stages

section Manager

variable {orc : Oracles} {env : Env} {s s' : CBudgetManager}

theorem proposalSync_lawful :
    (proposalSync orc).Lawful fun v => orc.hashOutPoint v.vin.prevout where
  broadcast_votes := (@proposalKind_lawful orc).broadcast_votes
  setTime_votes := (@proposalKind_lawful orc).setTime_votes
  setTime_hash := (@proposalKind_lawful orc).setTime_hash
  isValid_votes := (@proposalKind_lawful orc).isValid_votes
  isValid_hash := (@proposalKind_lawful orc).isValid_hash
  update_votes := (@proposalKind_lawful orc).update_votes
  update_hash h := by
    obtain ⟨m, -, rfl⟩ := map_ok.mp h
    rfl
  setValid_votes _ _ := rfl
  setValid_hash _ _ := rfl
  setVotes_votes _ _ := rfl
  setVotes_hash _ _ := rfl
  setVoteValid_hash _ _ := rfl

theorem budgetSync_lawful :
    (budgetSync orc).Lawful fun v => orc.hashOutPoint v.vin.prevout where
  broadcast_votes := (@budgetKind_lawful orc).broadcast_votes
  setTime_votes := (@budgetKind_lawful orc).setTime_votes
  setTime_hash := (@budgetKind_lawful orc).setTime_hash
  isValid_votes := (@budgetKind_lawful orc).isValid_votes
  isValid_hash := (@budgetKind_lawful orc).isValid_hash
  update_votes := (@budgetKind_lawful orc).update_votes
  update_hash h := by
    obtain ⟨m, -, rfl⟩ := map_ok.mp h
    rfl
  setValid_votes _ _ := rfl
  setValid_hash _ _ := rfl
  setVotes_votes _ _ := rfl
  setVotes_hash _ _ := rfl
  setVoteValid_hash _ _ := rfl

/-- The live items of both kinds. -/
def CBudgetManager.liveItems (orc : Oracles) (s : CBudgetManager) : List CInv :=
  s.proposals.liveItems (proposalSync orc) .budgetProposal .budgetVote ++
    s.budgets.liveItems (budgetSync orc) .budgetFinalized .budgetFinalizedVote

/-- A full sync offers the live items, and `getdata` finds what it offers. -/
structure Servable (orc : Oracles) (s : CBudgetManager) : Prop where
  complete : ∀ inv, inv ∈ s.sync orc 0 ↔ inv ∈ s.liveItems orc
  answered : ∀ inv ∈ s.sync orc 0, s.answers inv = true

structure BothAligned (orc : Oracles) (s : CBudgetManager) : Prop where
  proposals : Aligned (proposalSync orc) s.proposals
  budgets : Aligned (budgetSync orc) s.budgets

theorem BothAligned.servable (h : BothAligned orc s) : Servable orc s where
  complete inv := by
    rw [CBudgetManager.sync, CBudgetManager.liveItems, List.mem_append, List.mem_append,
      h.proposals.mem_sync_iff, h.budgets.mem_sync_iff]
  answered inv hinv := by
    rcases List.mem_append.mp hinv with hinv | hinv
    · rcases h.proposals.served hinv with ⟨hash, rfl, hcount⟩ | ⟨hash, rfl, hcount⟩
      · exact hcount
      · exact hcount
    · rcases h.budgets.served hinv with ⟨hash, rfl, hcount⟩ | ⟨hash, rfl, hcount⟩
      · exact hcount
      · exact hcount

theorem BothAligned.checkOrphanVotes (h : BothAligned orc s) :
    BothAligned orc (s.checkOrphanVotes orc env) :=
  ⟨h.proposals.checkOrphanVotes proposalSync_lawful, h.budgets.checkOrphanVotes budgetSync_lawful⟩

theorem BothAligned.message (h : BothAligned orc s) {m : Message} {r : CBudgetManager × List Effect}
    (hr : processMessage orc env s m = some r) : BothAligned orc r.1 := by
  unfold processMessage at hr
  split at hr
  · obtain rfl := Option.some.inj hr
    exact h
  · cases m with
    | mprop p =>
      obtain ⟨r', hr', rfl⟩ := Option.map_eq_some_iff.mp hr
      have hnext : BothAligned orc { s with proposals := r'.1 } :=
        ⟨h.proposals.processTarget proposalSync_lawful rfl hr', h.budgets⟩
      simp only
      split
      · exact hnext.checkOrphanVotes
      · exact hnext
    | fbs b =>
      obtain ⟨r', hr', rfl⟩ := Option.map_eq_some_iff.mp hr
      have hnext : BothAligned orc { s with budgets := r'.1 } :=
        ⟨h.proposals, h.budgets.processTarget budgetSync_lawful rfl hr'⟩
      simp only
      split
      · exact hnext.checkOrphanVotes
      · exact hnext
    | mvote v =>
      obtain rfl := Option.some.inj hr
      exact ⟨h.proposals.processVote proposalSync_lawful _ _, h.budgets⟩
    | fbvote v =>
      obtain rfl := Option.some.inj hr
      exact ⟨h.proposals, h.budgets.processVote budgetSync_lawful _ _⟩

theorem BothAligned.cleanProposals (h : BothAligned orc s) :
    BothAligned orc (s.cleanProposals orc env) :=
  ⟨h.proposals.cleanVotes proposalSync_lawful, h.budgets⟩

theorem BothAligned.submitFinalBudget (h : BothAligned orc s) (env : Env) (nb : BlockInputs) :
    BothAligned orc (submitFinalBudget orc env nb s) := by
  have hclean : BothAligned orc (s.cleanProposals orc env) := h.cleanProposals
  unfold Budget.submitFinalBudget
  cases nb.payments with
  | none => exact h
  | some payments =>
    simp only
    split
    · exact hclean
    · split
      · exact hclean
      · cases nb.txidCollateral with
        | none => exact hclean
        | some txid =>
          simp only
          cases hvalid : (nextBudget env payments txid).isValid orc env true with
          | error e => exact hclean
          | ok b =>
            simp only
            split
            · next budgets b' hadd =>
              have hvotes : (budgetSync orc).mapVotes b = .empty :=
                budgetSync_lawful.isValid_votes (congrArg some hvalid)
              have hnext := (hclean.budgets.insertSeen (t := b) rfl).add budgetSync_lawful hvotes
                (count_insert_key _ _) hadd
              exact ⟨hclean.proposals, hnext⟩
            · exact hclean

theorem BothAligned.autoCheck (h : BothAligned orc s)
    (auto : Uint256 → Option (Option CFinalizedBudgetVote)) (key : Uint256) :
    BothAligned orc (autoCheck orc env auto s key) := by
  unfold Budget.autoCheck
  split
  · exact h
  · exact h.cleanProposals
  · exact ⟨h.cleanProposals.proposals, h.budgets.castVote budgetSync_lawful _⟩

/-- What `CheckAndRemove` leaves alone. -/
def SameSeenBoth (s s' : CBudgetManager) : Prop :=
  SameSeen s.proposals s'.proposals ∧ SameSeen s.budgets s'.budgets

theorem sameSeenBoth_autoCheck (auto : Uint256 → Option (Option CFinalizedBudgetVote))
    (key : Uint256) : SameSeenBoth s (autoCheck orc env auto s key) := by
  unfold Budget.autoCheck
  split
  · exact ⟨.refl _, .refl _⟩
  · exact ⟨⟨rfl, rfl⟩, .refl _⟩
  · exact ⟨⟨rfl, rfl⟩, sameSeen_castVote _ _⟩

theorem BothAligned.checkBudget (h : BothAligned orc s)
    {auto : Uint256 → Option (Option CFinalizedBudgetVote)} {key : Uint256}
    (hs' : checkBudget orc env auto s key = some s') :
    BothAligned orc s' ∧ SameSeenBoth s s' := by
  obtain ⟨budgets, hbudgets, rfl⟩ := Option.map_eq_some_iff.mp hs'
  have hnext : BothAligned orc { s with budgets := budgets } :=
    ⟨h.proposals, h.budgets.revalidate budgetSync_lawful hbudgets⟩
  have hsame : SameSeenBoth s { s with budgets := budgets } :=
    ⟨.refl _, sameSeen_revalidate hbudgets⟩
  simp only
  split
  · split
    · obtain ⟨hp, hb⟩ := @sameSeenBoth_autoCheck orc env { s with budgets := budgets } auto key
      exact ⟨hnext.autoCheck auto key, hsame.1.trans hp, hsame.2.trans hb⟩
    · exact ⟨hnext, hsame⟩
  · exact ⟨hnext, hsame⟩

theorem BothAligned.checkAndRemove (h : BothAligned orc s)
    {auto : Uint256 → Option (Option CFinalizedBudgetVote)}
    (hs' : s.checkAndRemove orc env auto = some s') :
    BothAligned orc s' ∧ SameSeenBoth s s' := by
  obtain ⟨s₁, hs₁, hs'⟩ := Option.bind_eq_some_iff.mp hs'
  obtain ⟨proposals, hproposals, rfl⟩ := Option.map_eq_some_iff.mp hs'
  obtain ⟨h₁, hp₁, hb₁⟩ := foldlM_invariant
    (I := fun c => BothAligned orc c ∧ SameSeenBoth s c)
    (fun c c' key _ hc hstep => by
      obtain ⟨hc, hp, hb⟩ := hc
      obtain ⟨hc', hp', hb'⟩ := hc.checkBudget hstep
      exact ⟨hc', hp.trans hp', hb.trans hb'⟩)
    ⟨h, .refl _, .refl _⟩ hs₁
  obtain ⟨h₂, hp₂⟩ := foldlM_invariant
    (I := fun c => Aligned (proposalSync orc) c ∧ SameSeen s₁.proposals c)
    (fun c c' key _ hc hstep =>
      ⟨hc.1.revalidate proposalSync_lawful hstep, hc.2.trans (sameSeen_revalidate hstep)⟩)
    ⟨h₁.proposals, .refl _⟩ hproposals
  exact ⟨⟨h₂, h₁.budgets⟩, hp₁.trans hp₂, hb₁⟩

/-- A block that keeps the maps aligned, in a state in which it reaches the incremental sync: the
seen messages are cleared only where nothing is live and no vote waits, and what matures is among
the seen messages. -/
def BlockKeeps (orc : Oracles) (env : Env) (nb : BlockInputs) (s : CBudgetManager) : Prop :=
  nb.fBudgetNewBlock = true → masternodeSyncBudget < nb.requestedMasternodeAssets →
    env.chainActive.height.tmod 14 = 0 →
      let s := submitFinalBudget orc env nb s
      (clears env nb = true → s.proposals.Bare ∧ s.budgets.Bare) ∧
        (∀ p ∈ s.proposals.immature, Matures (proposalKind orc) env p →
          clears env nb = false ∧ s.proposals.seen.count (p.getHash orc) = true) ∧
        ∀ b ∈ s.budgets.immature, Matures (budgetKind orc) env b →
          clears env nb = false ∧ s.budgets.seen.count (b.getHash orc) = true

theorem BothAligned.newBlock (h : BothAligned orc s) {nb : BlockInputs}
    (hkeeps : BlockKeeps orc env nb s) (hs' : newBlock orc env nb s = some s') :
    BothAligned orc s' := by
  unfold Budget.newBlock at hs'
  split at hs'
  · obtain rfl := Option.some.inj hs'
    exact h
  next hlock =>
  split at hs'
  · obtain rfl := Option.some.inj hs'
    exact h
  next hassets =>
  have hsubmit := h.submitFinalBudget env nb
  simp only at hs'
  split at hs'
  · obtain rfl := Option.some.inj hs'
    exact hsubmit
  next hheight =>
  obtain ⟨hclear, hproposals, hbudgets⟩ :=
    hkeeps (by simpa using hlock) (not_le.mp hassets) (not_not.mp hheight)
  generalize Budget.submitFinalBudget orc env nb s = s₁ at hs' hsubmit hclear hproposals hbudgets
  have hcleared : BothAligned orc (if clears env nb then s₁.clearSeen else s₁) := by
    split
    · next hc =>
      exact ⟨hsubmit.proposals.clearSeen (hclear hc).1, hsubmit.budgets.clearSeen (hclear hc).2⟩
    · exact hsubmit
  obtain ⟨s₂, hs₂, hs'⟩ := Option.bind_eq_some_iff.mp hs'
  obtain ⟨h₂, ⟨hseenP, himmP⟩, hseenB, himmB⟩ := hcleared.checkAndRemove hs₂
  obtain ⟨proposals, hp, hs'⟩ := Option.bind_eq_some_iff.mp hs'
  obtain ⟨budgets, hb, rfl⟩ := Option.map_eq_some_iff.mp hs'
  constructor
  · refine (h₂.proposals.cleanVotes proposalSync_lawful).matureAll proposalSync_lawful ?_ hp
    intro p hp hm
    change (s₂.proposals.seen.count _) = true
    rw [hseenP]
    cases hc : clears env nb with
    | true =>
      rw [hc] at himmP
      exact absurd (hproposals p (himmP ▸ hp) hm).1 (by simp [hc])
    | false =>
      rw [hc] at himmP
      exact (hproposals p (himmP ▸ hp) hm).2
  · refine (h₂.budgets.cleanVotes budgetSync_lawful).matureAll budgetSync_lawful ?_ hb
    intro b hb hm
    change (s₂.budgets.seen.count _) = true
    rw [hseenB]
    cases hc : clears env nb with
    | true =>
      rw [hc] at himmB
      exact absurd (hbudgets b (himmB ▸ hb) hm).1 (by simp [hc])
    | false =>
      rw [hc] at himmB
      exact (hbudgets b (himmB ▸ hb) hm).2

theorem BothAligned.submitBudget (h : BothAligned orc s) {p : CBudgetProposal}
    (hs' : submitBudget orc env p s = some s') : BothAligned orc s' := by
  unfold Budget.submitBudget at hs'
  simp only at hs'
  split at hs'
  · obtain rfl := Option.some.inj hs'
    exact h
  · obtain ⟨r, hr, rfl⟩ := Option.map_eq_some_iff.mp hs'
    have hinserted := h.proposals.insertSeen (k := proposalSync orc)
      (t := { (proposalKind orc).broadcast p with
        nTime := (isBudgetCollateralValid env p.nFeeTXHash (p.getHash orc)).nTime.getD p.nTime })
      rfl
    exact ⟨hinserted.add proposalSync_lawful rfl (count_insert_key _ _) hr, h.budgets⟩

/-- The operations that keep the maps aligned: every one but some blocks. -/
def KeepsAligned (orc : Oracles) (s : Option CBudgetManager) (e : Env × Operation) : Prop :=
  match e.2 with
  | .newBlock nb => ∀ m, s = some m → BlockKeeps orc e.1 nb m
  | _ => True

theorem BothAligned.operate (h : BothAligned orc s) {op : Operation}
    (hkeeps : KeepsAligned orc (some s) (env, op)) (hs' : operate orc env s op = some s') :
    BothAligned orc s' := by
  cases op with
  | message m =>
    obtain ⟨r, hr, rfl⟩ := Option.map_eq_some_iff.mp hs'
    exact h.message hr
  | newBlock nb => exact h.newBlock (hkeeps s rfl) hs'
  | submitBudget p => exact h.submitBudget hs'
  | castVote v =>
    obtain rfl := Option.some.inj hs'
    exact ⟨h.proposals.castVote proposalSync_lawful v, h.budgets⟩
  | castBudgetVote v =>
    obtain rfl := Option.some.inj hs'
    exact ⟨h.proposals, h.budgets.castVote budgetSync_lawful v⟩
  | checkAndRemove auto => exact (h.checkAndRemove hs').1
  | cleanProposals =>
    obtain rfl := Option.some.inj hs'
    exact h.cleanProposals
  | clear =>
    obtain rfl := Option.some.inj hs'
    exact ⟨{ aligned_empty (proposalSync orc) with immature := h.proposals.immature },
      { aligned_empty (budgetSync orc) with immature := h.budgets.immature }⟩

/-- In every run whose blocks clear the seen messages only where nothing is live and mature only
what is among the seen messages, a full sync offers the live items and all of them can be
served. -/
theorem sync_offers_live_items (orc : Oracles) (es : List (Env × Operation))
    (hes : Meets (operateStep orc) (KeepsAligned orc) (some .init) es) (s : CBudgetManager)
    (hs : run (operateStep orc) (some .init) es = some s) : Servable orc s := by
  have hall : ∀ m, run (operateStep orc) (some .init) es = some m → BothAligned orc m := by
    refine run_invariant (I := fun s => ∀ m, s = some m → BothAligned orc m)
      (fun s e h hkeeps m hm => ?_) (fun m hm => ?_) hes
    · obtain ⟨s₀, rfl, hm⟩ := Option.bind_eq_some_iff.mp hm
      exact (h s₀ rfl).operate hkeeps hm
    · obtain rfl := Option.some.inj hm
      exact ⟨aligned_empty _, aligned_empty _⟩
  exact (hall s hs).servable

end Manager

section Samples

/-- A block at height 0 with the random number `rand`. -/
def quietBlock (rand : ℤ) : Operation := .newBlock ⟨true, 5, none, none, rand, fun _ => none⟩

def afterRun (es : List (Env × Operation)) : Option CBudgetManager :=
  run (operateStep sampleHashes) (some .init) es

/-- The live items and what a full sync offers. -/
def offered (s : CBudgetManager) : List CInv × List CInv :=
  (s.liveItems sampleHashes, s.sync sampleHashes 0)

theorem not_servable_of_offered {s : CBudgetManager} {inv : CInv}
    (h : offered s = ([inv], [])) : ¬Servable sampleHashes s := by
  intro hs
  have hmem := (hs.complete inv).mpr (by rw [(Prod.mk.inj h).1]; exact List.mem_singleton_self inv)
  rw [(Prod.mk.inj h).2] at hmem
  cases hmem

def clearedRun : List (Env × Operation) :=
  [(sampleEnv, .message (.mprop sampleProposal)), (sampleEnv, quietBlock 0)]

/-- The fee transaction of the proposal has one confirmation when the message comes. -/
def maturedRun : List (Env × Operation) :=
  [({ sampleEnv with getIXConfirmations := fun _ => 1 }, .message (.mprop sampleProposal)),
    (sampleEnv, quietBlock 1)]

/-- A proposal is live and not offered, after the seen messages were cleared and after it matured
in a block. -/
theorem live_proposal_not_offered :
    (∃ s, afterRun clearedRun = some s ∧ offered s = ([.budgetProposal 43200], []) ∧
      ¬Servable sampleHashes s) ∧
    ∃ s, afterRun maturedRun = some s ∧ offered s = ([.budgetProposal 43200], []) ∧
      ¬Servable sampleHashes s := by
  have hcleared : (afterRun clearedRun).map offered = some ([.budgetProposal 43200], []) := by
    decide
  have hmatured : (afterRun maturedRun).map offered = some ([.budgetProposal 43200], []) := by
    decide
  obtain ⟨s, hs, hoff⟩ := Option.map_eq_some_iff.mp hcleared
  obtain ⟨s', hs', hoff'⟩ := Option.map_eq_some_iff.mp hmatured
  exact ⟨⟨s, hs, hoff, not_servable_of_offered hoff⟩, s', hs', hoff', not_servable_of_offered hoff'⟩

/-- A proposal, a vote on it, and a block that does not clear. -/
def votedRun : List (Env × Operation) :=
  [(sampleEnv, .message (.mprop sampleProposal)),
    (sampleEnv, .message (.mvote (sampleVote 50 voteYes 1600000000 1))), (sampleEnv, quietBlock 1)]

theorem sync_offers_live_items_sample :
    ∃ s, afterRun votedRun = some s ∧ (s.sync sampleHashes 0).length = 2 ∧
      Servable sampleHashes s := by
  have hoffered : (afterRun votedRun).map (fun s => (s.sync sampleHashes 0).length) = some 2 := by
    decide
  obtain ⟨s, hs, hlength⟩ := Option.map_eq_some_iff.mp hoffered
  refine ⟨s, hs, hlength, sync_offers_live_items sampleHashes votedRun ?_ s hs⟩
  refine ⟨trivial, trivial, fun m hm => ?_, trivial⟩
  have himmature : (afterRun (votedRun.take 2)).map
      (fun s => (s.proposals.immature.length, s.budgets.immature.length)) = some (0, 0) := by
    decide
  have hnone : m.proposals.immature.length = 0 ∧ m.budgets.immature.length = 0 := by
    have hm' : afterRun (votedRun.take 2) = some m := hm
    rw [hm', Option.map_some] at himmature
    exact Prod.mk.inj (Option.some.inj himmature)
  intro _ _ _
  refine ⟨fun hclears => absurd hclears (by decide), fun p hp => ?_, fun b hb => ?_⟩
  · rw [show (submitFinalBudget sampleHashes sampleEnv ⟨true, 5, none, none, 1, fun _ => none⟩
      m) = m from rfl, List.length_eq_zero_iff.mp hnone.1] at hp
    cases hp
  · rw [show (submitFinalBudget sampleHashes sampleEnv ⟨true, 5, none, none, 1, fun _ => none⟩
      m) = m from rfl, List.length_eq_zero_iff.mp hnone.2] at hb
    cases hb

end Samples

end Scrypta.Budget
