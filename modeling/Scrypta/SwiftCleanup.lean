import Scrypta.SwiftHandlers

/-! The cleanup of expired locks, described by what it leaves in each map. The loop runs
over the locks as they are at its start; each turn touches the request and the votes of
its own transaction only, and every input that its request lists. -/

namespace Scrypta.SwiftTX

def Expired (env : Env) (l : CTransactionLock) : Prop := l.nExpiration < env.getTime

instance (env : Env) (l : CTransactionLock) : Decidable (Expired env l) :=
  inferInstanceAs (Decidable (_ < _))

/-- Each lock is stored under its own transaction. -/
def KeyedLocks (s : State) : Prop := ∀ t l, s.mapTxLocks.find t = some l → l.txHash = t

/-- Some expired lock of `L` and the request for it satisfy `P`. -/
def SomeExpired (env : Env) (s : State) (L : List (Uint256 × CTransactionLock))
    (P : CTransactionLock → CTransaction → Prop) : Prop :=
  ∃ t l tx, (t, l) ∈ L ∧ Expired env l ∧ s.mapTxLockReq.find t = some tx ∧ P l tx

def Releases (env : Env) (s : State) (L : List (Uint256 × CTransactionLock))
    (o : COutPoint) : Prop := SomeExpired env s L fun _ tx => o ∈ tx.prevouts

def ForgetsVote (env : Env) (s : State) (L : List (Uint256 × CTransactionLock))
    (k : Uint256) : Prop :=
  SomeExpired env s L fun l _ => k ∈ l.vecConsensusVotes.map CConsensusVote.getHash

theorem cleanLock_of_live {env : Env} {s : State} {t : Uint256} {l : CTransactionLock}
    (h : ¬Expired env l) : cleanLock env s (t, l) = s := by
  simp only [cleanLock, if_pos (Int.not_lt.mp h)]

theorem cleanLock_of_expired {env : Env} {s : State} {l : CTransactionLock}
    (h : Expired env l) : cleanLock env s (l.txHash, l) =
      { (match s.mapTxLockReq.find l.txHash with
        | some tx =>
          { s with
            mapLockedInputs := s.mapLockedInputs.eraseAll tx.prevouts
            mapTxLockReq := s.mapTxLockReq.erase l.txHash
            mapTxLockReqRejected := s.mapTxLockReqRejected.erase l.txHash
            mapTxLockVote := s.mapTxLockVote.eraseAll
              (l.vecConsensusVotes.map CConsensusVote.getHash) }
        | none => s) with mapTxLocks := s.mapTxLocks.erase l.txHash } := by
  simp only [cleanLock, if_neg (Int.not_le.mpr h)]
  cases s.mapTxLockReq.find l.txHash <;> rfl

section Turn

variable {env : Env} {s : State} {l : CTransactionLock} (h : Expired env l)
include h

theorem cleanLock_locks (t : Uint256) : (cleanLock env s (l.txHash, l)).mapTxLocks.find t =
    if t = l.txHash then none else s.mapTxLocks.find t := by
  rw [cleanLock_of_expired h]
  exact Dict.find_erase _ _ _

theorem cleanLock_req (t : Uint256) : (cleanLock env s (l.txHash, l)).mapTxLockReq.find t =
    if t = l.txHash then none else s.mapTxLockReq.find t := by
  rw [cleanLock_of_expired h]
  cases hr : s.mapTxLockReq.find l.txHash with
  | none =>
    by_cases ht : t = l.txHash
    · rw [if_pos ht, ht]
      exact hr
    · rw [if_neg ht]
  | some tx => exact Dict.find_erase _ _ _

theorem cleanLock_locked (o : COutPoint) (t : Uint256) :
    (cleanLock env s (l.txHash, l)).mapLockedInputs.find o = some t ↔
      s.mapLockedInputs.find o = some t ∧
        ¬∃ tx, s.mapTxLockReq.find l.txHash = some tx ∧ o ∈ tx.prevouts := by
  rw [cleanLock_of_expired h]
  cases hr : s.mapTxLockReq.find l.txHash with
  | none => simp
  | some tx =>
    simp only [Dict.find_eraseAll]
    split
    · next ho => simp [ho]
    · next ho => simp [ho]

theorem cleanLock_vote (k : Uint256) (v : CConsensusVote) :
    (cleanLock env s (l.txHash, l)).mapTxLockVote.find k = some v ↔
      s.mapTxLockVote.find k = some v ∧ ¬∃ tx, s.mapTxLockReq.find l.txHash = some tx ∧
        k ∈ l.vecConsensusVotes.map CConsensusVote.getHash := by
  rw [cleanLock_of_expired h]
  cases hr : s.mapTxLockReq.find l.txHash with
  | none => simp
  | some tx =>
    simp only [Dict.find_eraseAll]
    split
    · next hk => simp [hk]
    · next hk => simp [hk]

end Turn

/-- The maps after the loop, over a list of locks with distinct keys. -/
structure Cleaned (env : Env) (s : State) (L : List (Uint256 × CTransactionLock))
    (s' : State) : Prop where
  locks : ∀ t l, s'.mapTxLocks.find t = some l ↔
    s.mapTxLocks.find t = some l ∧ ¬∃ l', (t, l') ∈ L ∧ Expired env l'
  req : ∀ t tx, s'.mapTxLockReq.find t = some tx ↔
    s.mapTxLockReq.find t = some tx ∧ ¬∃ l', (t, l') ∈ L ∧ Expired env l'
  locked : ∀ o t, s'.mapLockedInputs.find o = some t ↔
    s.mapLockedInputs.find o = some t ∧ ¬Releases env s L o
  vote : ∀ k v, s'.mapTxLockVote.find k = some v ↔
    s.mapTxLockVote.find k = some v ∧ ¬ForgetsVote env s L k

theorem someExpired_cons_live {env : Env} {s : State} {e : Uint256 × CTransactionLock}
    {L : List (Uint256 × CTransactionLock)} {P : CTransactionLock → CTransaction → Prop}
    (h : ¬Expired env e.2) : SomeExpired env s (e :: L) P ↔ SomeExpired env s L P := by
  constructor
  · rintro ⟨t, l, tx, hmem, hl, hp⟩
    rcases List.mem_cons.mp hmem with heq | hmem
    · subst heq
      exact absurd hl h
    · exact ⟨t, l, tx, hmem, hl, hp⟩
  · rintro ⟨t, l, tx, hmem, hp⟩
    exact ⟨t, l, tx, List.mem_cons_of_mem _ hmem, hp⟩

theorem someExpired_cons_expired {env : Env} {s s' : State} {t₀ : Uint256}
    {l₀ : CTransactionLock} {L : List (Uint256 × CTransactionLock)}
    {P : CTransactionLock → CTransaction → Prop} (h : Expired env l₀)
    (hreq : ∀ t l, (t, l) ∈ L → s'.mapTxLockReq.find t = s.mapTxLockReq.find t) :
    SomeExpired env s ((t₀, l₀) :: L) P ↔
      (∃ tx, s.mapTxLockReq.find t₀ = some tx ∧ P l₀ tx) ∨ SomeExpired env s' L P := by
  constructor
  · rintro ⟨t, l, tx, hmem, hl, htx, hp⟩
    rcases List.mem_cons.mp hmem with heq | hmem
    · cases heq
      exact Or.inl ⟨tx, htx, hp⟩
    · exact Or.inr ⟨t, l, tx, hmem, hl, (hreq t l hmem).trans htx, hp⟩
  · rintro (⟨tx, htx, hp⟩ | ⟨t, l, tx, hmem, hl, htx, hp⟩)
    · exact ⟨t₀, l₀, tx, List.mem_cons_self, h, htx, hp⟩
    · exact ⟨t, l, tx, List.mem_cons_of_mem _ hmem, hl, (hreq t l hmem).symm.trans htx, hp⟩

theorem cleaned_foldl (env : Env) (L : List (Uint256 × CTransactionLock)) (s : State)
    (hkey : ∀ t l, (t, l) ∈ L → l.txHash = t) (hnodup : (L.map Prod.fst).Nodup) :
    Cleaned env s L (L.foldl (cleanLock env) s) := by
  induction L generalizing s with
  | nil =>
    exact ⟨by simp, by simp, by simp [Releases, SomeExpired],
      by simp [ForgetsVote, SomeExpired]⟩
  | cons e L ih =>
    obtain ⟨t₀, l₀⟩ := e
    obtain rfl : l₀.txHash = t₀ := hkey _ _ List.mem_cons_self
    rw [List.map_cons, List.nodup_cons] at hnodup
    have htail := ih (cleanLock env s (l₀.txHash, l₀))
      (fun t l h => hkey t l (List.mem_cons_of_mem _ h)) hnodup.2
    have hfresh : ∀ t l, (t, l) ∈ L → t ≠ l₀.txHash := by
      rintro t l hmem rfl
      exact hnodup.1 (List.mem_map.mpr ⟨_, hmem, rfl⟩)
    rw [List.foldl_cons]
    by_cases hexp : Expired env l₀
    · have hreq : ∀ t l, (t, l) ∈ L →
          (cleanLock env s (l₀.txHash, l₀)).mapTxLockReq.find t = s.mapTxLockReq.find t :=
        fun t l hmem => by rw [cleanLock_req hexp, if_neg (hfresh t l hmem)]
      refine ⟨?_, ?_, ?_, ?_⟩
      · intro t l
        rw [htail.locks, cleanLock_locks hexp]
        by_cases ht : t = l₀.txHash
        · simp [ht, hexp]
        · simp [ht]
      · intro t tx
        rw [htail.req, cleanLock_req hexp]
        by_cases ht : t = l₀.txHash
        · simp [ht, hexp]
        · simp [ht]
      · intro o t
        rw [htail.locked, cleanLock_locked hexp, and_assoc, ← not_or]
        unfold Releases
        rw [someExpired_cons_expired hexp hreq]
      · intro k v
        rw [htail.vote, cleanLock_vote hexp, and_assoc, ← not_or]
        unfold ForgetsVote
        rw [someExpired_cons_expired hexp hreq]
    · rw [cleanLock_of_live hexp] at htail ⊢
      have hkeyed : ∀ t, (∃ l, (t, l) ∈ (l₀.txHash, l₀) :: L ∧ Expired env l) ↔
          ∃ l, (t, l) ∈ L ∧ Expired env l := by
        intro t
        constructor
        · rintro ⟨l, hmem, hl⟩
          rcases List.mem_cons.mp hmem with heq | hmem
          · cases heq
            exact absurd hl hexp
          · exact ⟨l, hmem, hl⟩
        · rintro ⟨l, hmem, hl⟩
          exact ⟨l, List.mem_cons_of_mem _ hmem, hl⟩
      refine ⟨?_, ?_, ?_, ?_⟩
      · intro t l
        rw [htail.locks, hkeyed]
      · intro t tx
        rw [htail.req, hkeyed]
      · intro o t
        rw [htail.locked, Releases, Releases, someExpired_cons_live hexp]
      · intro k v
        rw [htail.vote, ForgetsVote, ForgetsVote, someExpired_cons_live hexp]

/-- The cleanup of a node with a tip. -/
theorem cleanTransactionLocksList_cleaned {env : Env} {s : State} (htip : env.tip.isSome)
    (hkey : KeyedLocks s) :
    Cleaned env s s.mapTxLocks.toList (cleanTransactionLocksList env s) := by
  have hdef : cleanTransactionLocksList env s =
      s.mapTxLocks.toList.foldl (cleanLock env) s := by
    obtain ⟨n, hn⟩ := Option.isSome_iff_exists.mp htip
    simp only [cleanTransactionLocksList, hn]
    rfl
  rw [hdef]
  exact cleaned_foldl env _ s (fun t l h => hkey t l (Dict.mem_toList.mp h))
    (Dict.nodup_keys _)

end Scrypta.SwiftTX
