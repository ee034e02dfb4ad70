import Mathlib.Algebra.Order.Ring.Nat
import Mathlib.Data.Finset.Max
import Scrypta.Toolkit.Dict
import Scrypta.Toolkit.Runs

/-! The key pool of an unlocked wallet: keys made ahead, each with a record in the database, whose
indices are taken from the set, kept or given back. -/

namespace Scrypta.KeyPool

variable {Key : Type*}

structure Wallet (Key : Type*) where
  setKeyPool : Finset ℤ
  pool : Dict ℤ Key
  keys : List Key

/-- A new key, given the keys that there are; `-keypool` as it is set; and the wallet's file. -/
structure Env (Key : Type*) where
  generateNewKey : List Key → Key
  keypool : ℤ
  fFileBacked : Bool

def nextIndex (setKeyPool : Finset ℤ) : ℤ :=
  if h : setKeyPool.Nonempty then setKeyPool.max' h + 1 else 1

def addKey (env : Env Key) (w : Wallet Key) : Wallet Key :=
  let key := env.generateNewKey w.keys
  let nEnd := nextIndex w.setKeyPool
  ⟨insert nEnd w.setKeyPool, w.pool.set nEnd key, key :: w.keys⟩

/-- `nTargetSize + 1` -/
def targetSize (env : Env Key) (kpSize : ℕ) : ℕ :=
  ((if 0 < kpSize then kpSize else (max env.keypool 0).toNat) % 2 ^ 32 + 1) % 2 ^ 32

def topUpLoop (env : Env Key) (size : ℕ) : ℕ → Wallet Key → Wallet Key
  | 0, w => w
  | turns + 1, w =>
    if w.setKeyPool.card < size then topUpLoop env size turns (addKey env w) else w

def topUpKeyPool (env : Env Key) (kpSize : ℕ) (w : Wallet Key) : Wallet Key :=
  topUpLoop env (targetSize env kpSize) (targetSize env kpSize) w

/-- The oldest key of the set, whose index is taken out. `none` where an exception is thrown, for a
record that cannot be read or a key that the wallet does not have. -/
def takeOldest [DecidableEq Key] (w : Wallet Key) : Option (Option (ℤ × Key) × Wallet Key) :=
  if h : w.setKeyPool.Nonempty then
    let nIndex := w.setKeyPool.min' h
    match w.pool.find nIndex with
    | none => none
    | some key =>
      if key ∈ w.keys then
        some (some (nIndex, key), { w with setKeyPool := w.setKeyPool.erase nIndex })
      else none
  else some (none, w)

/-- There is no reservation when `nIndex` stays at -1. -/
def reserveKeyFromKeyPool [DecidableEq Key] (env : Env Key) (w : Wallet Key) :
    Option (Option (ℤ × Key) × Wallet Key) := takeOldest (topUpKeyPool env 0 w)

def keepKey (env : Env Key) (nIndex : ℤ) (w : Wallet Key) : Wallet Key :=
  if env.fFileBacked then { w with pool := w.pool.erase nIndex } else w

def returnKey (nIndex : ℤ) (w : Wallet Key) : Wallet Key :=
  { w with setKeyPool := insert nIndex w.setKeyPool }

def getKeyFromPool [DecidableEq Key] (env : Env Key) (w : Wallet Key) : Option (Key × Wallet Key) :=
  (reserveKeyFromKeyPool env w).map fun r =>
    match r.1 with
    | none =>
      let key := env.generateNewKey r.2.keys
      (key, { r.2 with keys := key :: r.2.keys })
    | some (nIndex, key) => (key, keepKey env nIndex r.2)

/-! The reservations that are out, and the keys that were kept. -/

structure Session (Key : Type*) where
  wallet : Wallet Key
  reserved : List (ℤ × Key) := []
  kept : List Key := []

/-- A reservation is kept or returned by its place among those that are out. -/
inductive Op where
  | reserve
  | keep (n : ℕ)
  | giveBack (n : ℕ)
  | topUp (kpSize : ℕ)
  | getKey

def apply [DecidableEq Key] (env : Env Key) (s : Session Key) : Op → Option (Session Key)
  | .reserve => (reserveKeyFromKeyPool env s.wallet).map fun r =>
      { s with wallet := r.2, reserved := s.reserved ++ r.1.toList }
  | .keep n =>
    match s.reserved[n]? with
    | none => some s
    | some r => some ⟨keepKey env r.1 s.wallet, s.reserved.eraseIdx n, r.2 :: s.kept⟩
  | .giveBack n =>
    match s.reserved[n]? with
    | none => some s
    | some r => some { s with wallet := returnKey r.1 s.wallet, reserved := s.reserved.eraseIdx n }
  | .topUp kpSize => some { s with wallet := topUpKeyPool env kpSize s.wallet }
  | .getKey => (getKeyFromPool env s.wallet).map fun r =>
      { s with wallet := r.2, kept := r.1 :: s.kept }

def step [DecidableEq Key] (env : Env Key) (s : Option (Session Key)) (op : Op) :
    Option (Session Key) :=
  s.bind fun s => apply env s op

/-- An index in the set or out in a reservation. -/
def Live (s : Session Key) (i : ℤ) : Prop :=
  i ∈ s.wallet.setKeyPool ∨ i ∈ s.reserved.map Prod.fst

/-- What makes reservations exclusive. -/
structure Sound (s : Session Key) : Prop where
  once : (s.reserved.map Prod.fst).Nodup
  apart : ∀ i ∈ s.reserved.map Prod.fst, i ∉ s.wallet.setKeyPool
  records : ∀ i ∈ s.wallet.setKeyPool, ∃ key, s.wallet.pool.find i = some key
  recorded : ∀ r ∈ s.reserved, s.wallet.pool.find r.1 = some r.2
  own : ∀ i j key, Live s i → Live s j → s.wallet.pool.find i = some key →
    s.wallet.pool.find j = some key → i = j
  known : ∀ i key, Live s i → s.wallet.pool.find i = some key → key ∈ s.wallet.keys
  keptKnown : ∀ key ∈ s.kept, key ∈ s.wallet.keys
  gone : ∀ i key, Live s i → s.wallet.pool.find i = some key → key ∉ s.kept
  keptOnce : s.kept.Nodup

theorem lt_nextIndex {setKeyPool : Finset ℤ} {i : ℤ} (h : i ∈ setKeyPool) :
    i < nextIndex setKeyPool := by
  have hle := setKeyPool.le_max' i h
  rw [nextIndex, dif_pos ⟨i, h⟩]
  omega

theorem nextIndex_notMem (setKeyPool : Finset ℤ) : nextIndex setKeyPool ∉ setKeyPool := fun h =>
  lt_irrefl _ (lt_nextIndex h)

theorem nextIndex_insert (setKeyPool : Finset ℤ) :
    nextIndex (insert (nextIndex setKeyPool) setKeyPool) = nextIndex setKeyPool + 1 := by
  have hne : (insert (nextIndex setKeyPool) setKeyPool).Nonempty := Finset.insert_nonempty _ _
  have hmax : (insert (nextIndex setKeyPool) setKeyPool).max' hne = nextIndex setKeyPool := by
    apply le_antisymm
    · refine Finset.max'_le _ _ _ fun i hi => ?_
      rcases Finset.mem_insert.1 hi with rfl | hi
      · exact le_refl _
      · exact (lt_nextIndex hi).le
    · exact Finset.le_max' _ _ (Finset.mem_insert_self _ _)
  rw [nextIndex, dif_pos hne, hmax]

section Steps

variable {env : Env Key} {s : Session Key}

/-- A session with the wallet after a refill of one key. -/
def Session.added (env : Env Key) (s : Session Key) : Session Key :=
  { s with wallet := addKey env s.wallet }

theorem live_added {i : ℤ} :
    Live (s.added env) i ↔ i = nextIndex s.wallet.setKeyPool ∨ Live s i := by
  unfold Live Session.added addKey
  rw [Finset.mem_insert, or_assoc]

theorem find_added (i : ℤ) : (s.added env).wallet.pool.find i =
    if i = nextIndex s.wallet.setKeyPool then some (env.generateNewKey s.wallet.keys)
    else s.wallet.pool.find i := Dict.find_set _ _ _ _

theorem Sound.added (hfresh : ∀ keys, env.generateNewKey keys ∉ keys) (h : Sound s)
    (hfree : nextIndex s.wallet.setKeyPool ∉ s.reserved.map Prod.fst) :
    Sound (s.added env) := by
  have hnot : ¬Live s (nextIndex s.wallet.setKeyPool) := fun hlive =>
    hlive.elim (nextIndex_notMem _) hfree
  -- every live record is the new one or one from before
  have hrecord : ∀ i key, Live (s.added env) i → (s.added env).wallet.pool.find i = some key →
      i = nextIndex s.wallet.setKeyPool ∧ key = env.generateNewKey s.wallet.keys ∨
      Live s i ∧ s.wallet.pool.find i = some key := by
    intro i key hi hkey
    rw [find_added] at hkey
    split at hkey
    · next heq => exact Or.inl ⟨heq, (Option.some.inj hkey).symm⟩
    · next hne => exact Or.inr ⟨(live_added.1 hi).resolve_left hne, hkey⟩
  have hold : ∀ i key, Live s i → s.wallet.pool.find i = some key →
      key ≠ env.generateNewKey s.wallet.keys := by
    rintro i key hi hkey rfl
    exact hfresh _ (h.known i _ hi hkey)
  refine ⟨h.once, ?_, ?_, ?_, ?_, ?_, ?_, ?_, h.keptOnce⟩
  · intro i hi hmem
    rcases Finset.mem_insert.1 hmem with rfl | hmem
    · exact hfree hi
    · exact h.apart i hi hmem
  · intro i hi
    rw [find_added]
    split
    · exact ⟨_, rfl⟩
    · next hne => exact h.records i ((Finset.mem_insert.1 hi).resolve_left hne)
  · intro r hr
    rw [find_added, if_neg, h.recorded r hr]
    rintro heq
    exact hfree (heq ▸ List.mem_map_of_mem hr)
  · intro i j key hi hj hki hkj
    rcases hrecord i key hi hki with ⟨rfl, rfl⟩ | ⟨hi, hki⟩
    · rcases hrecord j _ hj hkj with ⟨rfl, -⟩ | ⟨hj, hkj⟩
      · rfl
      · exact absurd rfl (hold j _ hj hkj)
    · rcases hrecord j _ hj hkj with ⟨rfl, rfl⟩ | ⟨hj, hkj⟩
      · exact absurd rfl (hold i _ hi hki)
      · exact h.own i j key hi hj hki hkj
  · intro i key hi hkey
    rcases hrecord i key hi hkey with ⟨-, rfl⟩ | ⟨hi, hkey⟩
    · exact List.mem_cons_self
    · exact List.mem_cons_of_mem _ (h.known i key hi hkey)
  · exact fun key hkey => List.mem_cons_of_mem _ (h.keptKnown key hkey)
  · intro i key hi hkey
    rcases hrecord i key hi hkey with ⟨-, rfl⟩ | ⟨hi, hkey⟩
    · exact fun hkept => hfresh _ (h.keptKnown _ hkept)
    · exact h.gone i key hi hkey

/-- A reservation that was made and whose record is not there, or is another one. -/
def Broken (w : Wallet Key) (r : ℤ × Key) : Prop :=
  r.2 ∈ w.keys ∧ w.pool.find r.1 ≠ some r.2

theorem Broken.addKey (hfresh : ∀ keys, env.generateNewKey keys ∉ keys) {w : Wallet Key}
    {r : ℤ × Key} (h : Broken w r) : Broken (addKey env w) r := by
  refine ⟨List.mem_cons_of_mem _ h.1, ?_⟩
  change (w.pool.set _ _).find r.1 ≠ _
  rw [Dict.find_set]
  split
  · intro heq
    exact hfresh _ (Option.some.inj heq ▸ h.1)
  · exact h.2

theorem broken_addKey (hfresh : ∀ keys, env.generateNewKey keys ∉ keys) {w : Wallet Key}
    {r : ℤ × Key} (hknown : r.2 ∈ w.keys) (hnext : r.1 = nextIndex w.setKeyPool) :
    Broken (addKey env w) r := by
  refine ⟨List.mem_cons_of_mem _ hknown, ?_⟩
  change (w.pool.set _ _).find r.1 ≠ _
  rw [Dict.find_set, if_pos hnext]
  intro heq
  exact hfresh _ (Option.some.inj heq ▸ hknown)

theorem Broken.topUpLoop (hfresh : ∀ keys, env.generateNewKey keys ∉ keys) {w : Wallet Key}
    {r : ℤ × Key} (h : Broken w r) (size turns : ℕ) : Broken (topUpLoop env size turns w) r := by
  induction turns generalizing w with
  | zero => exact h
  | succ turns ih =>
    rw [KeyPool.topUpLoop]
    split
    · exact ih (h.addKey hfresh)
    · exact h

/-- The indices that a refill up to so many keys writes. -/
def Written (w : Wallet Key) (size : ℕ) (i : ℤ) : Prop :=
  nextIndex w.setKeyPool ≤ i ∧ i < nextIndex w.setKeyPool + (size - w.setKeyPool.card : ℕ)

theorem card_addKey (env : Env Key) (w : Wallet Key) :
    (addKey env w).setKeyPool.card = w.setKeyPool.card + 1 :=
  Finset.card_insert_of_notMem (nextIndex_notMem _)

theorem written_addKey (env : Env Key) {w : Wallet Key} {size : ℕ}
    (hsize : w.setKeyPool.card < size) (i : ℤ) :
    Written w size i ↔ i = nextIndex w.setKeyPool ∨ Written (addKey env w) size i := by
  have hcard := card_addKey env w
  have hnext : nextIndex (addKey env w).setKeyPool = nextIndex w.setKeyPool + 1 :=
    nextIndex_insert _
  unfold Written
  rw [hcard, hnext]
  omega

theorem Sound.topUpLoop (hfresh : ∀ keys, env.generateNewKey keys ∉ keys) (h : Sound s)
    {size turns : ℕ} (hfree : ∀ r ∈ s.reserved, ¬Written s.wallet size r.1) :
    Sound { s with wallet := topUpLoop env size turns s.wallet } := by
  induction turns generalizing s with
  | zero => exact h
  | succ turns ih =>
    rw [KeyPool.topUpLoop]
    split
    · next hsize =>
      have hwritten := written_addKey env hsize
      refine ih (s := s.added env) (h.added hfresh fun hmem => ?_) fun r hr hw => ?_
      · obtain ⟨r, hr, heq⟩ := List.mem_map.1 hmem
        exact hfree r hr ((hwritten r.1).2 (Or.inl heq))
      · exact hfree r hr ((hwritten r.1).2 (Or.inr hw))
    · exact h

/-- A reservation whose record is written again loses it. -/
theorem broken_topUpLoop (hfresh : ∀ keys, env.generateNewKey keys ∉ keys) {w : Wallet Key}
    {size turns : ℕ} (hturns : size ≤ turns + w.setKeyPool.card) {r : ℤ × Key}
    (hknown : r.2 ∈ w.keys) (hw : Written w size r.1) :
    Broken (topUpLoop env size turns w) r := by
  induction turns generalizing w with
  | zero =>
    unfold Written at hw
    omega
  | succ turns ih =>
    have hsize : w.setKeyPool.card < size := by
      unfold Written at hw
      omega
    have hcard := card_addKey env w
    rw [KeyPool.topUpLoop, if_pos hsize]
    rcases (written_addKey env hsize r.1).1 hw with hnext | hw
    · exact (broken_addKey hfresh hknown hnext).topUpLoop hfresh _ _
    · exact ih (by omega) (List.mem_cons_of_mem _ hknown) hw

/-! Reservations. -/

theorem Sound.exists_record (h : Sound s) {i : ℤ} (hi : Live s i) :
    ∃ key, s.wallet.pool.find i = some key := by
  rcases hi with hi | hi
  · exact h.records i hi
  · obtain ⟨r, hr, rfl⟩ := List.mem_map.1 hi
    exact ⟨r.2, h.recorded r hr⟩

/-- Indices that go between the set and the reservations keep their records. -/
theorem Sound.of_live (h : Sound s) {s' : Session Key} (hpool : s'.wallet.pool = s.wallet.pool)
    (hkeys : s'.wallet.keys = s.wallet.keys) (hkept : s'.kept = s.kept)
    (hlive : ∀ i, Live s' i → Live s i) (honce : (s'.reserved.map Prod.fst).Nodup)
    (hapart : ∀ i ∈ s'.reserved.map Prod.fst, i ∉ s'.wallet.setKeyPool)
    (hrecorded : ∀ r ∈ s'.reserved, s.wallet.pool.find r.1 = some r.2) : Sound s' := by
  refine ⟨honce, hapart, ?_, ?_, ?_, ?_, ?_, ?_, ?_⟩
  · rw [hpool]
    exact fun i hi => h.exists_record (hlive i (Or.inl hi))
  · rwa [hpool]
  · rw [hpool]
    exact fun i j key hi hj => h.own i j key (hlive i hi) (hlive j hj)
  · rw [hpool, hkeys]
    exact fun i key hi => h.known i key (hlive i hi)
  · rw [hkept, hkeys]
    exact h.keptKnown
  · rw [hpool, hkept]
    exact fun i key hi => h.gone i key (hlive i hi)
  · rw [hkept]
    exact h.keptOnce

/-- The key of a reservation is kept, and its record may be erased. -/
theorem Sound.keep (env : Env Key) (h : Sound s) {n : ℕ} {r : ℤ × Key}
    (hr : s.reserved[n]? = some r) :
    Sound ⟨keepKey env r.1 s.wallet, s.reserved.eraseIdx n, r.2 :: s.kept⟩ := by
  have hmem := List.mem_of_getElem? hr
  have hfind := h.recorded r hmem
  have hlive : Live s r.1 := Or.inr (List.mem_map_of_mem hmem)
  have hsub : (s.reserved.eraseIdx n).Sublist s.reserved := List.eraseIdx_sublist _ _
  have hset : (keepKey env r.1 s.wallet).setKeyPool = s.wallet.setKeyPool := by
    unfold keepKey
    split <;> rfl
  have hkeys : (keepKey env r.1 s.wallet).keys = s.wallet.keys := by
    unfold keepKey
    split <;> rfl
  have hpool : ∀ i, i ≠ r.1 →
      (keepKey env r.1 s.wallet).pool.find i = s.wallet.pool.find i := by
    intro i hi
    unfold keepKey
    split
    · exact (Dict.find_erase _ _ _).trans (if_neg hi)
    · rfl
  have hgone : r.1 ∉ (s.reserved.eraseIdx n).map Prod.fst := by
    obtain ⟨hn, rfl⟩ := List.getElem?_eq_some_iff.1 hr
    have honce := h.once
    have hperm := (List.getElem_cons_eraseIdx_perm hn).map Prod.fst
    rw [← hperm.nodup_iff, List.map_cons, List.nodup_cons] at honce
    exact honce.1
  have hstill : ∀ i, Live ⟨keepKey env r.1 s.wallet, s.reserved.eraseIdx n, r.2 :: s.kept⟩ i →
      Live s i ∧ i ≠ r.1 := by
    rintro i (hi | hi)
    · rw [hset] at hi
      refine ⟨Or.inl hi, ?_⟩
      rintro rfl
      exact h.apart _ (List.mem_map_of_mem hmem) hi
    · refine ⟨Or.inr ((hsub.map Prod.fst).subset hi), ?_⟩
      rintro rfl
      exact hgone hi
  refine ⟨h.once.sublist (hsub.map Prod.fst), ?_, ?_, ?_, ?_, ?_, ?_, ?_, ?_⟩
  · rw [hset]
    exact fun i hi => h.apart i ((hsub.map Prod.fst).subset hi)
  · intro i hi
    obtain ⟨hlive', hne⟩ := hstill i (Or.inl hi)
    rw [hpool i hne]
    exact h.exists_record hlive'
  · intro r' hr'
    rw [hpool]
    · exact h.recorded r' (hsub.subset hr')
    · rintro heq
      exact hgone (heq ▸ List.mem_map_of_mem hr')
  · intro i j key hi hj hki hkj
    obtain ⟨hi, hine⟩ := hstill i hi
    obtain ⟨hj, hjne⟩ := hstill j hj
    rw [hpool i hine] at hki
    rw [hpool j hjne] at hkj
    exact h.own i j key hi hj hki hkj
  · intro i key hi hkey
    obtain ⟨hi, hne⟩ := hstill i hi
    rw [hpool i hne] at hkey
    rw [hkeys]
    exact h.known i key hi hkey
  · intro key hkey
    rw [hkeys]
    rcases List.mem_cons.1 hkey with rfl | hkey
    · exact h.known r.1 r.2 hlive hfind
    · exact h.keptKnown key hkey
  · intro i key hi hkey hkept
    obtain ⟨hi, hne⟩ := hstill i hi
    rw [hpool i hne] at hkey
    rcases List.mem_cons.1 hkept with rfl | hkept
    · exact hne (h.own i r.1 r.2 hi hlive hkey hfind)
    · exact h.gone i key hi hkey hkept
  · exact List.nodup_cons.2 ⟨h.gone r.1 r.2 hlive hfind, h.keptOnce⟩

theorem Sound.giveBack (h : Sound s) {n : ℕ} {r : ℤ × Key} (hr : s.reserved[n]? = some r) :
    Sound { s with wallet := returnKey r.1 s.wallet, reserved := s.reserved.eraseIdx n } := by
  have hmem := List.mem_of_getElem? hr
  have hsub : (s.reserved.eraseIdx n).Sublist s.reserved := List.eraseIdx_sublist _ _
  have hgone : r.1 ∉ (s.reserved.eraseIdx n).map Prod.fst := by
    obtain ⟨hn, rfl⟩ := List.getElem?_eq_some_iff.1 hr
    have honce := h.once
    have hperm := (List.getElem_cons_eraseIdx_perm hn).map Prod.fst
    rw [← hperm.nodup_iff, List.map_cons, List.nodup_cons] at honce
    exact honce.1
  refine h.of_live rfl rfl rfl ?_ (h.once.sublist (hsub.map Prod.fst)) ?_ fun r' hr' =>
    h.recorded r' (hsub.subset hr')
  · rintro i (hi | hi)
    · rcases Finset.mem_insert.1 hi with rfl | hi
      · exact Or.inr (List.mem_map_of_mem hmem)
      · exact Or.inl hi
    · exact Or.inr ((hsub.map Prod.fst).subset hi)
  · intro i hi hset
    rcases Finset.mem_insert.1 hset with rfl | hset
    · exact hgone hi
    · exact h.apart i ((hsub.map Prod.fst).subset hi) hset

theorem Sound.generated (hfresh : ∀ keys, env.generateNewKey keys ∉ keys) (h : Sound s) :
    Sound { s with
      wallet := { s.wallet with keys := env.generateNewKey s.wallet.keys :: s.wallet.keys },
      kept := env.generateNewKey s.wallet.keys :: s.kept } := by
  have hnew := hfresh s.wallet.keys
  refine ⟨h.once, h.apart, h.records, h.recorded, h.own, ?_, ?_, ?_, ?_⟩
  · exact fun i key hi hkey => List.mem_cons_of_mem _ (h.known i key hi hkey)
  · intro key hkey
    rcases List.mem_cons.1 hkey with rfl | hkey
    · exact List.mem_cons_self
    · exact List.mem_cons_of_mem _ (h.keptKnown key hkey)
  · intro i key hi hkey hkept
    rcases List.mem_cons.1 hkept with rfl | hkept
    · exact hnew (h.known i _ hi hkey)
    · exact h.gone i key hi hkey hkept
  · exact List.nodup_cons.2 ⟨fun hkept => hnew (h.keptKnown _ hkept), h.keptOnce⟩

theorem broken_of_written (hfresh : ∀ keys, env.generateNewKey keys ∉ keys) (h : Sound s)
    {kpSize : ℕ} {r : ℤ × Key} (hr : r ∈ s.reserved)
    (hw : Written s.wallet (targetSize env kpSize) r.1) :
    Broken (topUpKeyPool env kpSize s.wallet) r :=
  broken_topUpLoop hfresh (Nat.le_add_right _ _)
    (h.known r.1 r.2 (Or.inr (List.mem_map_of_mem hr)) (h.recorded r hr)) hw

/-- No refill of the step writes the record of a reservation that is out. -/
def NoOverwrite (env : Env Key) (s : Session Key) : Op → Prop
  | .reserve | .getKey => ∀ r ∈ s.reserved, ¬Written s.wallet (targetSize env 0) r.1
  | .topUp kpSize => ∀ r ∈ s.reserved, ¬Written s.wallet (targetSize env kpSize) r.1
  | .keep _ | .giveBack _ => True

/-! With a set of two keys or more the reservations stay below the largest index of the set. -/

def Below (s : Session Key) : Prop :=
  ∀ i ∈ s.reserved.map Prod.fst, ∃ j ∈ s.wallet.setKeyPool, i < j

theorem Below.noOverwrite (env : Env Key) (h : Below s) (op : Op) : NoOverwrite env s op := by
  have hnone : ∀ size, ∀ r ∈ s.reserved, ¬Written s.wallet size r.1 := by
    intro size r hr hw
    obtain ⟨j, hj, hlt⟩ := h r.1 (List.mem_map_of_mem hr)
    have hnext := lt_nextIndex hj
    unfold Written at hw
    omega
  cases op with
  | reserve => exact hnone _
  | keep n => trivial
  | giveBack n => trivial
  | topUp kpSize => exact hnone _
  | getKey => exact hnone _

theorem Below.mono (h : Below s) {s' : Session Key}
    (hset : s.wallet.setKeyPool ⊆ s'.wallet.setKeyPool)
    (hreserved : s'.reserved.map Prod.fst ⊆ s.reserved.map Prod.fst) : Below s' := by
  intro i hi
  obtain ⟨j, hj, hlt⟩ := h i (hreserved hi)
  exact ⟨j, hset hj, hlt⟩

theorem subset_topUpLoop (size turns : ℕ) (w : Wallet Key) :
    w.setKeyPool ⊆ (topUpLoop env size turns w).setKeyPool := by
  induction turns generalizing w with
  | zero => exact Finset.Subset.refl _
  | succ turns ih =>
    rw [topUpLoop]
    split
    · exact (Finset.subset_insert _ _).trans (ih (addKey env w))
    · exact Finset.Subset.refl _

theorem le_card_topUpLoop {size turns : ℕ} {w : Wallet Key}
    (hturns : size ≤ turns + w.setKeyPool.card) :
    size ≤ (topUpLoop env size turns w).setKeyPool.card := by
  induction turns generalizing w with
  | zero => rwa [Nat.zero_add] at hturns
  | succ turns ih =>
    have hcard := card_addKey env w
    rw [topUpLoop]
    split
    · exact ih (by omega)
    · omega

/-- The least of two indices goes, and a larger one stays. -/
theorem Below.take (h : Below s) {i : ℤ} (htwo : 2 ≤ s.wallet.setKeyPool.card)
    (hleast : ∀ j ∈ s.wallet.setKeyPool, i ≤ j) {key : Key} :
    Below { s with wallet := { s.wallet with setKeyPool := s.wallet.setKeyPool.erase i },
                   reserved := s.reserved ++ [(i, key)] } := by
  obtain ⟨j, hj, hne⟩ := Finset.exists_mem_ne htwo i
  have hlt : i < j := lt_of_le_of_ne (hleast j hj) hne.symm
  have hj' : j ∈ s.wallet.setKeyPool.erase i := Finset.mem_erase.2 ⟨hne, hj⟩
  intro k hk
  rw [List.map_append, List.mem_append] at hk
  rcases hk with hk | hk
  · obtain ⟨m, hm, hkm⟩ := h k hk
    by_cases hmi : m = i
    · exact ⟨j, hj', (hmi ▸ hkm).trans hlt⟩
    · exact ⟨m, Finset.mem_erase.2 ⟨hmi, hm⟩, hkm⟩
  · exact ⟨j, hj', List.mem_singleton.1 hk ▸ hlt⟩

section Taking

variable [DecidableEq Key]

/-- In an empty set there is no key to reserve; else there is one with the least index. -/
theorem Sound.takeOldest (h : Sound s) :
    s.wallet.setKeyPool = ∅ ∧ takeOldest s.wallet = some (none, s.wallet) ∨
    ∃ i key, i ∈ s.wallet.setKeyPool ∧ (∀ j ∈ s.wallet.setKeyPool, i ≤ j) ∧
      takeOldest s.wallet =
        some (some (i, key), { s.wallet with setKeyPool := s.wallet.setKeyPool.erase i }) ∧
      Sound { s with wallet := { s.wallet with setKeyPool := s.wallet.setKeyPool.erase i },
                     reserved := s.reserved ++ [(i, key)] } := by
  rcases s.wallet.setKeyPool.eq_empty_or_nonempty with hempty | hne
  · refine Or.inl ⟨hempty, ?_⟩
    rw [KeyPool.takeOldest, dif_neg (Finset.not_nonempty_iff_eq_empty.2 hempty)]
  · have hmem := s.wallet.setKeyPool.min'_mem hne
    obtain ⟨key, hkey⟩ := h.records _ hmem
    have hknown := h.known _ key (Or.inl hmem) hkey
    refine Or.inr ⟨s.wallet.setKeyPool.min' hne, key, hmem,
      fun j hj => s.wallet.setKeyPool.min'_le j hj, ?_, ?_⟩
    · rw [KeyPool.takeOldest, dif_pos hne]
      simp only [hkey, if_pos hknown]
    · have hnot : s.wallet.setKeyPool.min' hne ∉ s.reserved.map Prod.fst := fun hres =>
        h.apart _ hres hmem
      refine h.of_live rfl rfl rfl ?_ ?_ ?_ ?_
      · rintro i (hi | hi)
        · exact Or.inl (Finset.mem_of_mem_erase hi)
        · rw [List.map_append, List.mem_append] at hi
          rcases hi with hi | hi
          · exact Or.inr hi
          · exact Or.inl (List.mem_singleton.1 hi ▸ hmem)
      · rw [List.map_append]
        refine List.nodup_append.2 ⟨h.once, List.nodup_singleton _, fun i hi j hj heq => hnot ?_⟩
        have hsame : i = s.wallet.setKeyPool.min' hne := heq.trans (List.mem_singleton.1 hj)
        rwa [← hsame]
      · intro i hi hset
        rw [List.map_append, List.mem_append] at hi
        rcases hi with hi | hi
        · exact h.apart i hi (Finset.mem_of_mem_erase hset)
        · exact Finset.notMem_erase _ _ (List.mem_singleton.1 hi ▸ hset)
      · intro r hr
        rcases List.mem_append.1 hr with hr | hr
        · exact h.recorded r hr
        · rw [List.mem_singleton.1 hr]
          exact hkey

/-- A key that is taken leaves the records and the keys as they are. -/
theorem takeOldest_same {w w' : Wallet Key} {r : Option (ℤ × Key)}
    (h : takeOldest w = some (r, w')) : w'.pool = w.pool ∧ w'.keys = w.keys := by
  unfold takeOldest at h
  split at h
  · dsimp only at h
    split at h
    · cases h
    · split at h
      · obtain ⟨-, rfl⟩ := Prod.mk.inj (Option.some.inj h)
        exact ⟨rfl, rfl⟩
      · cases h
  · obtain ⟨-, rfl⟩ := Prod.mk.inj (Option.some.inj h)
    exact ⟨rfl, rfl⟩

theorem Sound.getKeyFromPool (hfresh : ∀ keys, env.generateNewKey keys ∉ keys)
    (h : Sound { s with wallet := topUpKeyPool env 0 s.wallet }) :
    ∃ r, getKeyFromPool env s.wallet = some r ∧
      Sound { s with wallet := r.2, kept := r.1 :: s.kept } := by
  unfold KeyPool.getKeyFromPool reserveKeyFromKeyPool
  rcases h.takeOldest with ⟨-, htake⟩ | ⟨i, key, -, -, htake, hsound⟩
  · dsimp only at htake
    rw [htake]
    exact ⟨_, rfl, h.generated hfresh⟩
  · dsimp only at htake
    rw [htake]
    refine ⟨_, rfl, ?_⟩
    have hlast : (s.reserved ++ [(i, key)])[s.reserved.length]? = some (i, key) :=
      List.getElem?_concat_length
    have hkeep := hsound.keep env hlast
    have hback : (s.reserved ++ [(i, key)]).eraseIdx s.reserved.length = s.reserved := by
      rw [List.eraseIdx_append_of_length_le (Nat.le_refl _), Nat.sub_self]
      exact List.append_nil _
    dsimp only at hkeep
    rwa [hback] at hkeep

theorem apply_sound_iff (hfresh : ∀ keys, env.generateNewKey keys ∉ keys) (h : Sound s) (op : Op) :
    (∃ s', apply env s op = some s' ∧ Sound s') ↔ NoOverwrite env s op := by
  cases op with
  | reserve =>
    constructor
    · rintro ⟨s', hs', hsound⟩ r hr hw
      have hbroken := broken_of_written hfresh h hr hw
      obtain ⟨⟨res, w⟩, hres, rfl⟩ := Option.map_eq_some_iff.1 hs'
      have hfind := hsound.recorded r (List.mem_append_left _ hr)
      rw [(takeOldest_same hres).1] at hfind
      exact hbroken.2 hfind
    · intro hfree
      have htop : Sound { s with wallet := topUpKeyPool env 0 s.wallet } :=
        h.topUpLoop hfresh hfree
      rw [apply, reserveKeyFromKeyPool]
      rcases htop.takeOldest with ⟨-, htake⟩ | ⟨i, key, -, -, htake, hsound⟩
      · dsimp only at htake
        rw [htake]
        refine ⟨_, rfl, ?_⟩
        simp only [Option.toList_none, List.append_nil]
        exact htop
      · dsimp only at htake
        rw [htake]
        exact ⟨_, rfl, hsound⟩
  | keep n =>
    refine iff_of_true ?_ trivial
    rw [apply]
    cases hr : s.reserved[n]? with
    | none => exact ⟨s, rfl, h⟩
    | some r => exact ⟨_, rfl, h.keep env hr⟩
  | giveBack n =>
    refine iff_of_true ?_ trivial
    rw [apply]
    cases hr : s.reserved[n]? with
    | none => exact ⟨s, rfl, h⟩
    | some r => exact ⟨_, rfl, h.giveBack hr⟩
  | topUp kpSize =>
    constructor
    · rintro ⟨s', hs', hsound⟩ r hr hw
      obtain rfl := Option.some.inj hs'
      exact (broken_of_written hfresh h hr hw).2 (hsound.recorded r hr)
    · exact fun hfree => ⟨_, rfl, h.topUpLoop hfresh hfree⟩
  | getKey =>
    constructor
    · rintro ⟨s', hs', hsound⟩ r hr hw
      have hbroken := broken_of_written hfresh h hr hw
      obtain ⟨⟨key, w⟩, hget, rfl⟩ := Option.map_eq_some_iff.1 hs'
      have hfind := hsound.recorded r hr
      obtain ⟨⟨res, w'⟩, hres, heq⟩ := Option.map_eq_some_iff.1 hget
      have hsame := (takeOldest_same hres).1
      dsimp only at heq hfind
      split at heq
      · obtain ⟨-, rfl⟩ := Prod.mk.inj heq
        rw [hsame] at hfind
        exact hbroken.2 hfind
      · obtain ⟨-, rfl⟩ := Prod.mk.inj heq
        unfold keepKey at hfind
        split at hfind
        · rw [Dict.find_erase, hsame] at hfind
          split at hfind
          · cases hfind
          · exact hbroken.2 hfind
        · rw [hsame] at hfind
          exact hbroken.2 hfind
    · intro hfree
      have htop : Sound { s with wallet := topUpKeyPool env 0 s.wallet } :=
        h.topUpLoop hfresh hfree
      obtain ⟨r, hr, hsound⟩ := htop.getKeyFromPool hfresh
      exact ⟨_, by rw [apply, hr]; rfl, hsound⟩

theorem Below.apply (hfresh : ∀ keys, env.generateNewKey keys ∉ keys)
    (htwo : 2 ≤ targetSize env 0) (hsound : Sound s) (h : Below s) {op : Op} {s' : Session Key}
    (hs' : apply env s op = some s') : Below s' := by
  have htop : Below { s with wallet := topUpKeyPool env 0 s.wallet } :=
    h.mono (subset_topUpLoop _ _ _) (List.Subset.refl _)
  have hsize : 2 ≤ (topUpKeyPool env 0 s.wallet).setKeyPool.card :=
    htwo.trans (le_card_topUpLoop (Nat.le_add_right _ _))
  have hfree : ∀ r ∈ s.reserved, ¬Written s.wallet (targetSize env 0) r.1 :=
    h.noOverwrite env .reserve
  have hsound' : Sound { s with wallet := topUpKeyPool env 0 s.wallet } :=
    hsound.topUpLoop hfresh hfree
  -- the set is not empty after the refill
  have htake : ∃ i key, takeOldest (topUpKeyPool env 0 s.wallet) =
        some (some (i, key), { topUpKeyPool env 0 s.wallet with
          setKeyPool := (topUpKeyPool env 0 s.wallet).setKeyPool.erase i }) ∧
      Below { s with
        wallet := { topUpKeyPool env 0 s.wallet with
          setKeyPool := (topUpKeyPool env 0 s.wallet).setKeyPool.erase i },
        reserved := s.reserved ++ [(i, key)] } := by
    rcases hsound'.takeOldest with ⟨hempty, -⟩ | ⟨i, key, -, hleast, htake, -⟩
    · dsimp only at hempty
      rw [hempty, Finset.card_empty] at hsize
      omega
    · exact ⟨i, key, htake, htop.take hsize hleast⟩
  obtain ⟨i, key, htake, hbelow⟩ := htake
  cases op with
  | reserve =>
    rw [KeyPool.apply, reserveKeyFromKeyPool, htake] at hs'
    obtain rfl := Option.some.inj hs'
    exact hbelow
  | keep n =>
    rw [KeyPool.apply] at hs'
    split at hs'
    · obtain rfl := Option.some.inj hs'
      exact h
    · obtain rfl := Option.some.inj hs'
      refine h.mono ?_ ((List.eraseIdx_sublist _ _).map _).subset
      dsimp only
      unfold keepKey
      split <;> exact Finset.Subset.refl _
  | giveBack n =>
    rw [KeyPool.apply] at hs'
    split at hs'
    · obtain rfl := Option.some.inj hs'
      exact h
    · obtain rfl := Option.some.inj hs'
      exact h.mono (Finset.subset_insert _ _) ((List.eraseIdx_sublist _ _).map _).subset
  | topUp kpSize =>
    obtain rfl := Option.some.inj hs'
    exact h.mono (subset_topUpLoop _ _ _) (List.Subset.refl _)
  | getKey =>
    rw [KeyPool.apply, getKeyFromPool, reserveKeyFromKeyPool, htake] at hs'
    obtain rfl := Option.some.inj hs'
    refine hbelow.mono ?_ (List.map_subset _ (List.subset_append_left _ _))
    dsimp only
    unfold keepKey
    split <;> exact Finset.Subset.refl _

end Taking

theorem Sound.keys_nodup (h : Sound s) : (s.reserved.map Prod.snd).Nodup := by
  refine h.once.of_map.map_on fun r hr r' hr' heq => ?_
  have hrecord := h.recorded r hr
  rw [heq] at hrecord
  have hsame := h.own r.1 r'.1 r'.2 (Or.inr (List.mem_map_of_mem hr))
    (Or.inr (List.mem_map_of_mem hr')) hrecord (h.recorded r' hr')
  exact Prod.ext hsame heq

end Steps

/-! Runs. -/

section Runs

variable [DecidableEq Key] {env : Env Key}

theorem meets_of_large (hfresh : ∀ keys, env.generateNewKey keys ∉ keys)
    (htwo : 2 ≤ targetSize env 0) {s : Session Key} (hsound : Sound s) (hbelow : Below s)
    (ops : List Op) :
    Runs.Meets (step env) (fun s op => ∀ s', s = some s' → NoOverwrite env s' op) (some s) ops := by
  induction ops generalizing s with
  | nil => trivial
  | cons op ops ih =>
    have hfree := hbelow.noOverwrite env op
    obtain ⟨s', hs', hsound'⟩ := (apply_sound_iff hfresh hsound op).2 hfree
    refine ⟨fun t ht => Option.some.inj ht ▸ hfree, ?_⟩
    rw [step, Option.bind_some, hs']
    exact ih hsound' (hbelow.apply hfresh htwo hsound hs')

/-- From a wallet whose set has its records, reservations are exclusive in every state of a run just
when no refill writes the record of one that is out; and none does when `-keypool` is positive. -/
theorem key_pool_exclusive (env : Env Key) (hfresh : ∀ keys, env.generateNewKey keys ∉ keys)
    (w : Wallet Key) (hw : Sound ⟨w, [], []⟩) :
    (∀ ops, (∀ past, past <+: ops → ∃ s, Runs.run (step env) (some ⟨w, [], []⟩) past = some s ∧
          Sound s ∧ (s.reserved.map Prod.snd).Nodup) ↔
        Runs.Meets (step env) (fun s op => ∀ s', s = some s' → NoOverwrite env s' op)
          (some ⟨w, [], []⟩) ops) ∧
      (1 ≤ env.keypool → env.keypool < 2 ^ 32 - 1 → ∀ ops,
        Runs.Meets (step env) (fun s op => ∀ s', s = some s' → NoOverwrite env s' op)
          (some ⟨w, [], []⟩) ops) := by
  constructor
  · intro ops
    have hstart : ∃ s, some (⟨w, [], []⟩ : Session Key) = some s ∧ Sound s ∧
        (s.reserved.map Prod.snd).Nodup := ⟨_, rfl, hw, hw.keys_nodup⟩
    refine Runs.forall_prefix_iff_meets (I := fun s => ∃ s', s = some s' ∧ Sound s' ∧
      (s'.reserved.map Prod.snd).Nodup) (fun s op hs => ?_) ops hstart
    obtain ⟨s, rfl, hsound, -⟩ := hs
    have hstep := apply_sound_iff hfresh hsound op
    constructor
    · rintro ⟨s', hs', hsound', -⟩ t ht
      exact Option.some.inj ht ▸ hstep.1 ⟨s', hs', hsound'⟩
    · intro hfree
      obtain ⟨s', hs', hsound'⟩ := hstep.2 (hfree s rfl)
      exact ⟨s', hs', hsound', hsound'.keys_nodup⟩
  · intro hpos hlt ops
    have htwo : 2 ≤ targetSize env 0 := by
      unfold targetSize
      rw [if_neg (Nat.lt_irrefl 0)]
      omega
    exact meets_of_large hfresh htwo hw (fun i hi => nomatch hi) ops

end Runs

theorem sound_empty (keys : List Key) : Sound ⟨⟨∅, Dict.empty, keys⟩, [], []⟩ := by
  have hdead : ∀ i, ¬Live (⟨⟨∅, Dict.empty, keys⟩, [], []⟩ : Session Key) i := by
    rintro i (hi | hi)
    · exact Finset.notMem_empty i hi
    · exact List.not_mem_nil hi
  exact ⟨List.nodup_nil, fun i hi => absurd (Or.inr hi) (hdead i),
    fun i hi => absurd (Or.inl hi) (hdead i), fun r hr => absurd hr List.not_mem_nil,
    fun i _ _ hi => absurd hi (hdead i), fun i _ hi => absurd hi (hdead i),
    fun key hkey => absurd hkey List.not_mem_nil, fun i _ hi => absurd hi (hdead i),
    List.nodup_nil⟩

/-- Keys are numbers, and a new one is above the others. -/
def countingEnv (keypool : ℤ) : Env ℕ := ⟨fun keys => keys.sum + 1, keypool, true⟩

theorem countingEnv_fresh (keypool : ℤ) (keys : List ℕ) :
    (countingEnv keypool).generateNewKey keys ∉ keys := fun h =>
  Nat.not_succ_le_self _ (List.single_le_sum (fun _ _ => Nat.zero_le _) _ h)

theorem key_pool_exclusive_hundred : ∃ s,
    Runs.run (step (countingEnv 100)) (some ⟨⟨∅, Dict.empty, []⟩, [], []⟩)
        [.reserve, .reserve, .giveBack 0, .topUp 7, .getKey] = some s ∧
      Sound s ∧ (s.reserved.map Prod.snd).Nodup :=
  have h := key_pool_exclusive (countingEnv 100) (countingEnv_fresh 100) ⟨∅, Dict.empty, []⟩
    (sound_empty [])
  (h.1 _).2 (h.2 (by decide) (by decide) _) _ (List.prefix_refl _)

/-- Without a pool two reservations have one index; when one is kept and the other returned, the
next one finds no record. -/
theorem one_index_twice :
    (Runs.run (step (countingEnv 0)) (some ⟨⟨∅, Dict.empty, []⟩, [], []⟩)
        [.reserve, .reserve]).map (fun s => s.reserved) = some [(1, 1), (1, 2)] ∧
      Runs.run (step (countingEnv 0)) (some ⟨⟨∅, Dict.empty, []⟩, [], []⟩)
        [.reserve, .reserve, .keep 0, .giveBack 0, .reserve] = none := by
  constructor <;> decide

end Scrypta.KeyPool
