import Scrypta.Toolkit.Cursors
import Scrypta.Toolkit.Multimap
import Scrypta.Toolkit.Runs

/-! `limitedmap`: a map beside a multimap from its values to its elements, with the least value
erased when there is no room. -/

namespace Scrypta

/-- An iterator is the key of its element. -/
structure LimitedMap (κ ν : Type*) [LinearOrder ν] where
  map : Dict κ ν
  rmap : Multimap ν κ
  nMaxSize : ℕ

namespace LimitedMap

variable {κ ν : Type*} [DecidableEq κ] [LinearOrder ν]

def empty (nMaxSizeIn : ℕ) : LimitedMap κ ν := ⟨Dict.empty, Multimap.empty, nMaxSizeIn⟩

/-- `none` where `rmap.begin()` of an empty `rmap` is dereferenced. -/
def eraseLeast (map : Dict κ ν) (rmap : Multimap ν κ) : Option (Dict κ ν × Multimap ν κ) :=
  rmap.entries.head?.map fun e => (map.erase e.2, rmap.eraseBegin)

def insert (m : LimitedMap κ ν) (k : κ) (v : ν) : Option (LimitedMap κ ν) :=
  if m.map.count k then some m
  else
    let map := m.map.set k v
    let room := if m.nMaxSize ≠ 0 ∧ map.size = m.nMaxSize then eraseLeast map m.rmap
      else some (map, m.rmap)
    room.map fun r => { m with map := r.1, rmap := r.2.insert v k }

/-- `none` where the assertion at the end fails. -/
def erase (m : LimitedMap κ ν) (k : κ) : Option (LimitedMap κ ν) :=
  match m.map.find k with
  | none => some m
  | some v =>
    if (v, k) ∈ m.rmap.entries then
      some { m with map := m.map.erase k, rmap := m.rmap.erase v k }
    else none

def update (m : LimitedMap κ ν) (k : κ) (v : ν) : Option (LimitedMap κ ν) :=
  match m.map.find k with
  | none => some m
  | some w =>
    if (w, k) ∈ m.rmap.entries then
      some { m with map := m.map.set k v, rmap := (m.rmap.erase w k).insert v k }
    else none

/-- The loop of `max_size`, which erases an element in each turn. -/
def trim (s : ℕ) : ℕ → Dict κ ν × Multimap ν κ → Option (Dict κ ν × Multimap ν κ)
  | 0, _ => none
  | turns + 1, r => if s < r.1.size then (eraseLeast r.1 r.2).bind (trim s turns) else some r

def maxSize (m : LimitedMap κ ν) (s : ℕ) : Option (LimitedMap κ ν) :=
  let room := if s ≠ 0 then trim s (m.map.size + 1) (m.map, m.rmap) else some (m.map, m.rmap)
  room.map fun r => ⟨r.1, r.2, s⟩

inductive Op (κ ν : Type*) where
  | insert (k : κ) (v : ν)
  | erase (k : κ)
  | update (k : κ) (v : ν)
  | maxSize (s : ℕ)

def apply (m : LimitedMap κ ν) : Op κ ν → Option (LimitedMap κ ν)
  | .insert k v => m.insert k v
  | .erase k => m.erase k
  | .update k v => m.update k v
  | .maxSize s => m.maxSize s

def step (m : Option (LimitedMap κ ν)) (op : Op κ ν) : Option (LimitedMap κ ν) :=
  m.bind fun m => m.apply op

/-- One entry of `rmap` for each element of `map`. -/
def Mirrors (map : Dict κ ν) (rmap : Multimap ν κ) : Prop :=
  rmap.entries.Perm (map.toList.map fun e => (e.2, e.1))

/-- Without a maximum there is nothing to exceed. -/
structure Sound (m : LimitedMap κ ν) : Prop where
  mirrors : Mirrors m.map m.rmap
  bounded : m.nMaxSize = 0 ∨ m.map.size ≤ m.nMaxSize

section Mirrors

variable {map : Dict κ ν} {rmap : Multimap ν κ} {k : κ} {v w : ν}

omit [DecidableEq κ] in
theorem Mirrors.length_eq (h : Mirrors map rmap) : rmap.entries.length = map.size := by
  have hlength := List.Perm.length_eq h
  rwa [List.length_map] at hlength

theorem Mirrors.mem_iff (h : Mirrors map rmap) :
    (v, k) ∈ rmap.entries ↔ map.find k = some v := by
  rw [List.Perm.mem_iff h, ← Dict.mem_toList, List.mem_map]
  constructor
  · rintro ⟨e, he, heq⟩
    obtain ⟨rfl, rfl⟩ := Prod.mk.inj heq
    exact he
  · exact fun he => ⟨(k, v), he, rfl⟩

theorem Mirrors.insert (h : Mirrors map rmap) (hk : map.find k = none) :
    Mirrors (map.set k v) (rmap.insert v k) := by
  have hset := (Dict.toList_set map k v).trans ((Dict.toList_of_find_none hk).symm.cons _)
  refine (Multimap.perm_insert rmap v k).trans (List.Perm.trans ?_ (hset.map _).symm)
  exact List.Perm.cons _ h

theorem Mirrors.erase (h : Mirrors map rmap) (hk : map.find k = some v) :
    Mirrors (map.erase k) (rmap.erase v k) := by
  have hmap := (Dict.toList_of_find hk).map fun e => (e.2, e.1)
  have hmem := h.mem_iff.2 hk
  have hperm := (List.perm_cons_erase hmem).symm.trans (List.Perm.trans h hmap)
  exact List.Perm.cons_inv hperm

theorem Mirrors.exists_least (h : Mirrors map rmap) (hpos : 0 < map.size) :
    ∃ v k rest, rmap.entries = (v, k) :: rest ∧ map.find k = some v ∧
      ∀ k' v', map.find k' = some v' → v ≤ v' := by
  rw [← h.length_eq] at hpos
  obtain ⟨⟨v, k⟩, rest, hentries⟩ := List.exists_cons_of_length_pos hpos
  have hleast := rmap.sorted
  rw [hentries, List.pairwise_cons] at hleast
  refine ⟨v, k, rest, hentries, h.mem_iff.1 (hentries ▸ List.mem_cons_self), fun k' v' hk' => ?_⟩
  have hmem := h.mem_iff.2 hk'
  rw [hentries] at hmem
  rcases List.mem_cons.1 hmem with heq | hmem
  · exact (Prod.mk.inj heq).1.ge
  · exact hleast.1 _ hmem

theorem Mirrors.eraseBegin {rest : List (ν × κ)} (h : Mirrors map rmap)
    (hentries : rmap.entries = (v, k) :: rest) : Mirrors (map.erase k) rmap.eraseBegin := by
  have hk : map.find k = some v := h.mem_iff.1 (hentries ▸ List.mem_cons_self)
  have herase := h.erase hk
  have heq : rmap.erase v k = rmap.eraseBegin := by
    unfold Multimap.erase Multimap.eraseBegin
    simp only [hentries, List.erase_cons_head, List.tail_cons]
  rwa [heq] at herase

theorem Mirrors.congr {map' : Dict κ ν} (h : Mirrors map rmap)
    (hfind : ∀ k, map'.find k = map.find k) : Mirrors map' rmap :=
  List.Perm.trans h ((Dict.toList_perm hfind).symm.map _)

theorem Mirrors.update (h : Mirrors map rmap) (hk : map.find k = some w) (v : ν) :
    Mirrors (map.set k v) ((rmap.erase w k).insert v k) := by
  have hfree : (map.erase k).find k = none := by rw [Dict.find_erase, if_pos rfl]
  refine ((h.erase hk).insert hfree).congr fun k' => ?_
  rw [Dict.find_set, Dict.find_set, Dict.find_erase]
  split <;> rfl

end Mirrors

section Steps

variable {m : LimitedMap κ ν} {k : κ} {v : ν}

theorem trim_spec {s turns : ℕ} {r : Dict κ ν × Multimap ν κ} (h : Mirrors r.1 r.2)
    (hturns : r.1.size < turns) :
    ∃ r', trim s turns r = some r' ∧ Mirrors r'.1 r'.2 ∧ r'.1.size ≤ s := by
  induction turns generalizing r with
  | zero => exact absurd hturns (Nat.not_lt_zero _)
  | succ turns ih =>
    obtain ⟨map, rmap⟩ := r
    dsimp only at h hturns
    rw [trim]
    split
    · next hlt =>
      obtain ⟨v, k, rest, hentries, hk, -⟩ := h.exists_least (Nat.zero_lt_of_lt hlt)
      have hsize := Dict.size_erase hk
      have hleast : eraseLeast map rmap = some (map.erase k, rmap.eraseBegin) := by
        rw [eraseLeast, hentries]
        rfl
      rw [hleast, Option.bind_some]
      exact ih (h.eraseBegin hentries) (by dsimp only; omega)
    · next hge => exact ⟨(map, rmap), rfl, h, not_lt.1 hge⟩

theorem maxSize_sound (h : Sound m) (s : ℕ) : ∃ m', m.maxSize s = some m' ∧ Sound m' := by
  unfold maxSize
  by_cases hs : s = 0
  · simp only [hs, ne_eq, not_true_eq_false, if_false, Option.map_some]
    exact ⟨_, rfl, h.mirrors, Or.inl rfl⟩
  · obtain ⟨r, hr, hmirrors, hsize⟩ :=
      trim_spec (s := s) (r := (m.map, m.rmap)) h.mirrors (Nat.lt_succ_self m.map.size)
    simp only [hs, ne_eq, not_false_eq_true, if_true, hr, Option.map_some]
    exact ⟨_, rfl, hmirrors, Or.inr hsize⟩

theorem erase_sound (h : Sound m) (k : κ) : ∃ m', m.erase k = some m' ∧ Sound m' := by
  unfold erase
  cases hk : m.map.find k with
  | none => exact ⟨m, rfl, h⟩
  | some v =>
    have hsize := Dict.size_erase hk
    simp only [h.mirrors.mem_iff.2 hk, if_true]
    exact ⟨_, rfl, h.mirrors.erase hk, h.bounded.imp_right fun hb => by dsimp only; omega⟩

theorem update_sound (h : Sound m) (k : κ) (v : ν) : ∃ m', m.update k v = some m' ∧ Sound m' := by
  unfold update
  cases hk : m.map.find k with
  | none => exact ⟨m, rfl, h⟩
  | some w =>
    have hsize := Dict.size_set_of_find hk v
    simp only [h.mirrors.mem_iff.2 hk, if_true]
    exact ⟨_, rfl, h.mirrors.update hk v, h.bounded.imp_right fun hb => by dsimp only; omega⟩

theorem insert_of_count (hk : m.map.count k = true) : m.insert k v = some m := by
  rw [insert, if_pos hk]

theorem insert_of_room (hk : m.map.find k = none)
    (hroom : m.nMaxSize = 0 ∨ m.map.size + 1 ≠ m.nMaxSize) :
    m.insert k v = some { m with map := m.map.set k v, rmap := m.rmap.insert v k } := by
  have hfull : ¬(m.nMaxSize ≠ 0 ∧ (m.map.set k v).size = m.nMaxSize) := by
    rw [Dict.size_set_of_none hk]
    tauto
  simp only [insert, Dict.count_eq_false.2 hk, Bool.false_eq_true, if_false, if_neg hfull,
    Option.map_some]

/-- The element that makes room is erased before the new one is in the multimap. -/
theorem insert_of_full (hk : m.map.find k = none) (hfull : m.map.size + 1 = m.nMaxSize) :
    m.insert k v = m.rmap.entries.head?.map fun e =>
      { m with map := (m.map.set k v).erase e.2, rmap := m.rmap.eraseBegin.insert v k } := by
  have hcond : m.nMaxSize ≠ 0 ∧ (m.map.set k v).size = m.nMaxSize := by
    rw [Dict.size_set_of_none hk]
    exact ⟨by omega, hfull⟩
  simp only [insert, Dict.count_eq_false.2 hk, Bool.false_eq_true, if_false, if_pos hcond,
    eraseLeast, Option.map_map]
  rfl

/-- An element that makes room leaves as many elements as there were. -/
theorem insert_full_spec (h : Mirrors m.map m.rmap) (hk : m.map.find k = none)
    (hfull : m.map.size + 1 = m.nMaxSize) (hpos : 0 < m.map.size) :
    ∃ m', m.insert k v = some m' ∧ Mirrors m'.map m'.rmap ∧ m'.map.size = m.map.size ∧
      m'.nMaxSize = m.nMaxSize := by
  obtain ⟨w, k', rest, hentries, hk', -⟩ := h.exists_least hpos
  have hne : k ≠ k' := by
    rintro rfl
    rw [hk] at hk'
    cases hk'
  have hfree : (m.map.erase k').find k = none := by
    rw [Dict.find_erase, if_neg hne, hk]
  have hfound : (m.map.set k v).find k' = some w := by
    rw [Dict.find_set, if_neg hne.symm, hk']
  have hsize := Dict.size_set_of_none hk v
  have herase := Dict.size_erase hfound
  rw [insert_of_full hk hfull, hentries, List.head?_cons, Option.map_some]
  refine ⟨_, rfl, ?_, by dsimp only; omega, rfl⟩
  refine ((h.eraseBegin hentries).insert hfree).congr fun k'' => ?_
  rw [Dict.find_erase, Dict.find_set, Dict.find_set, Dict.find_erase]
  by_cases hold : k'' = k'
  · rw [if_pos hold, if_neg (hold ▸ hne.symm), if_pos hold]
  · rw [if_neg hold, if_neg hold]

theorem insert_full_none (h : Mirrors m.map m.rmap) (hk : m.map.find k = none)
    (hone : m.nMaxSize = 1) (hzero : m.map.size = 0) : m.insert k v = none := by
  have hempty : m.rmap.entries = [] := List.eq_nil_of_length_eq_zero (h.length_eq.trans hzero)
  rw [insert_of_full hk (by omega), hempty]
  rfl

/-- A new element finds room, and the maximum is not the one that always evicts. -/
def FindsRoom (m : LimitedMap κ ν) : Op κ ν → Prop
  | .insert k _ => m.map.count k = true ∨ m.nMaxSize = 0 ∨
      m.map.size < m.nMaxSize ∧ m.nMaxSize ≠ 1
  | _ => True

theorem findsRoom_insert_iff (hk : m.map.find k = none) :
    FindsRoom m (.insert k v) ↔ m.nMaxSize = 0 ∨ m.map.size < m.nMaxSize ∧ m.nMaxSize ≠ 1 := by
  have hcount : ¬m.map.count k = true := by
    rw [Dict.count_eq_false.2 hk]
    exact Bool.false_ne_true
  exact or_iff_right hcount

theorem insert_sound_iff (h : Sound m) (k : κ) (v : ν) :
    (∃ m', m.insert k v = some m' ∧ Sound m') ↔ FindsRoom m (.insert k v) := by
  have hbounded := h.bounded
  cases hk : m.map.find k with
  | some w =>
    have hcount : m.map.count k = true := Dict.count_eq_true.2 ⟨w, hk⟩
    exact iff_of_true ⟨m, insert_of_count hcount, h⟩ (Or.inl hcount)
  | none =>
    have hsize := Dict.size_set_of_none hk v
    rw [findsRoom_insert_iff hk]
    by_cases hfull : m.map.size + 1 = m.nMaxSize
    · rcases Nat.eq_zero_or_pos m.map.size with hzero | hpos
      · rw [insert_full_none h.mirrors hk (by omega) hzero]
        refine iff_of_false ?_ (by omega)
        rintro ⟨m', hm', -⟩
        cases hm'
      · obtain ⟨m', hm', hmirrors, hsame, hmax⟩ := insert_full_spec h.mirrors hk hfull hpos
        exact iff_of_true ⟨m', hm', hmirrors, Or.inr (by omega)⟩ (by omega)
    · by_cases hN : m.nMaxSize = 0
      · rw [insert_of_room hk (Or.inl hN)]
        exact iff_of_true ⟨_, rfl, h.mirrors.insert hk, Or.inl hN⟩ (Or.inl hN)
      · rw [insert_of_room hk (Or.inr hfull)]
        constructor
        · rintro ⟨m', hm', hsound⟩
          obtain rfl := Option.some.inj hm'
          have hb := hsound.bounded
          dsimp only at hb
          omega
        · intro hroom
          exact ⟨_, rfl, h.mirrors.insert hk, Or.inr (by dsimp only; omega)⟩

theorem apply_sound_iff (h : Sound m) (op : Op κ ν) :
    (∃ m', m.apply op = some m' ∧ Sound m') ↔ FindsRoom m op := by
  cases op with
  | insert k v => exact insert_sound_iff h k v
  | erase k => exact iff_of_true (erase_sound h k) trivial
  | update k v => exact iff_of_true (update_sound h k v) trivial
  | maxSize s => exact iff_of_true (maxSize_sound h s) trivial

end Steps

/-! Pairs with different keys, inserted one after the other. -/

section Inserted

variable {m : LimitedMap κ ν}

def insertAll (m : LimitedMap κ ν) (pairs : List (κ × ν)) : Option (LimitedMap κ ν) :=
  Runs.run step (some m) (pairs.map fun e => .insert e.1 e.2)

/-- The map holds as many of the pairs as it may, and none that is left out has a higher value. -/
def HoldsHighest (pairs : List (κ × ν)) (m : LimitedMap κ ν) : Prop :=
  ∃ kept dropped, pairs.Perm (kept ++ dropped) ∧ m.map.toList.Perm kept ∧
    kept.length = min m.nMaxSize pairs.length ∧ ∀ a ∈ kept, ∀ b ∈ dropped, b.2 ≤ a.2

/-- Below the maximum the map stays below it, when it does not fail. -/
theorem insert_below (h : Mirrors m.map m.rmap) (hlt : m.map.size < m.nMaxSize) (k : κ) (v : ν) :
    m.insert k v = none ∨ ∃ m', m.insert k v = some m' ∧ Mirrors m'.map m'.rmap ∧
      m'.map.size < m'.nMaxSize ∧ m'.nMaxSize = m.nMaxSize := by
  cases hk : m.map.find k with
  | some w => exact Or.inr ⟨m, insert_of_count (Dict.count_eq_true.2 ⟨w, hk⟩), h, hlt, rfl⟩
  | none =>
    have hsize := Dict.size_set_of_none hk v
    by_cases hfull : m.map.size + 1 = m.nMaxSize
    · rcases Nat.eq_zero_or_pos m.map.size with hzero | hpos
      · exact Or.inl (insert_full_none h hk (by omega) hzero)
      · obtain ⟨m', hm', hmirrors, hsame, hmax⟩ := insert_full_spec h hk hfull hpos
        exact Or.inr ⟨m', hm', hmirrors, by omega, hmax⟩
    · refine Or.inr ⟨_, insert_of_room hk (Or.inr hfull), h.insert hk, ?_, rfl⟩
      dsimp only
      omega

theorem run_step_none (ops : List (Op κ ν)) :
    Runs.run step (none : Option (LimitedMap κ ν)) ops = none := by
  induction ops with
  | nil => rfl
  | cons op ops ih => exact ih

theorem insertAll_below (h : Mirrors m.map m.rmap) (hlt : m.map.size < m.nMaxSize)
    (pairs : List (κ × ν)) {m' : LimitedMap κ ν} (hm' : insertAll m pairs = some m') :
    m'.map.size < m'.nMaxSize ∧ m'.nMaxSize = m.nMaxSize := by
  induction pairs generalizing m with
  | nil =>
    obtain rfl := Option.some.inj hm'
    exact ⟨hlt, rfl⟩
  | cons e pairs ih =>
    rw [insertAll, List.map_cons, Runs.run_cons, step, Option.bind_some, apply] at hm'
    rcases insert_below h hlt e.1 e.2 with hnone | ⟨m₁, hm₁, hmirrors, hlt₁, hmax⟩
    · rw [hnone, run_step_none] at hm'
      cases hm'
    · rw [hm₁] at hm'
      obtain ⟨hsize, hsame⟩ := ih hmirrors hlt₁ hm'
      exact ⟨hsize, hsame.trans hmax⟩

/-- With room to spare every pair is kept. -/
theorem insertAll_of_room {past pairs : List (κ × ν)} (hm : m.map.toList.Perm past)
    (hkeys : ((past ++ pairs).map Prod.fst).Nodup)
    (hroom : past.length + pairs.length < m.nMaxSize) :
    ∃ m', insertAll m pairs = some m' ∧ m'.map.toList.Perm (past ++ pairs) ∧
      m'.nMaxSize = m.nMaxSize := by
  induction pairs generalizing m past with
  | nil => exact ⟨m, rfl, by rwa [List.append_nil], rfl⟩
  | cons e pairs ih =>
    obtain ⟨k, v⟩ := e
    rw [List.length_cons] at hroom
    have hk : m.map.find k = none := by
      by_contra hne
      obtain ⟨w, hw⟩ := Option.ne_none_iff_exists'.1 hne
      have hmem := hm.mem_iff.1 (Dict.mem_toList.2 hw)
      rw [List.map_append, List.nodup_append] at hkeys
      exact hkeys.2.2 k (List.mem_map_of_mem hmem) k (by simp) rfl
    have hsize : m.map.size = past.length := hm.length_eq
    have hnext : (m.map.set k v).toList.Perm (past ++ [(k, v)]) :=
      (Dict.toList_set m.map k v).trans (((Dict.toList_of_find_none hk).symm.trans hm).cons _
        |>.trans (List.perm_append_singleton _ _).symm)
    rw [insertAll, List.map_cons, Runs.run_cons, step, Option.bind_some, apply,
      insert_of_room hk (Or.inr (by omega))]
    have hkeys' : ((past ++ [(k, v)] ++ pairs).map Prod.fst).Nodup := by
      rwa [List.append_assoc, List.singleton_append]
    have hrest := ih (m := { m with map := m.map.set k v, rmap := m.rmap.insert v k }) hnext hkeys'
      (by rw [List.length_append, List.length_singleton]; dsimp only; omega)
    rwa [List.append_assoc, List.singleton_append] at hrest

omit [DecidableEq κ] in
theorem mirrors_empty : Mirrors (Dict.empty : Dict κ ν) (Multimap.empty : Multimap ν κ) :=
  List.Perm.refl _

theorem holdsHighest_iff {N : ℕ} (hN : 1 ≤ N) {pairs : List (κ × ν)}
    (hkeys : (pairs.map Prod.fst).Nodup) :
    (∃ m, insertAll (empty N) pairs = some m ∧ HoldsHighest pairs m) ↔ pairs.length < N := by
  constructor
  · rintro ⟨m, hm, kept, dropped, -, hkept, hlength, -⟩
    obtain ⟨hlt, hmax⟩ := insertAll_below (m := empty N) mirrors_empty hN pairs hm
    have hsize : m.map.size = kept.length := hkept.length_eq
    change m.nMaxSize = N at hmax
    omega
  · intro hlt
    have hempty : (empty N : LimitedMap κ ν).map.toList.Perm [] := List.Perm.refl _
    have hroom :
        ([] : List (κ × ν)).length + pairs.length < (empty N : LimitedMap κ ν).nMaxSize := by
      rwa [List.length_nil, Nat.zero_add]
    obtain ⟨m, hm, hperm, hmax⟩ := insertAll_of_room hempty hkeys hroom
    refine ⟨m, hm, pairs, [], by rw [List.append_nil], hperm, ?_, fun a _ b hb => nomatch hb⟩
    change m.nMaxSize = N at hmax
    omega

end Inserted

/-- The map and its multimap stay as they should, and `begin()` of an empty multimap is not read, in
the runs whose insertions find room; pairs with different keys are kept as they should be when they
are fewer than the maximum. -/
theorem limits_iff (N : ℕ) (hN : 1 ≤ N) :
    (∀ ops : List (Op κ ν),
      (∀ past, past <+: ops → ∃ m, Runs.run step (some (empty N)) past = some m ∧ Sound m) ↔
        Runs.Meets step (fun s op => ∀ m, s = some m → FindsRoom m op) (some (empty N)) ops) ∧
    ∀ pairs : List (κ × ν), (pairs.map Prod.fst).Nodup →
      ((∃ m, insertAll (empty N) pairs = some m ∧ HoldsHighest pairs m) ↔ pairs.length < N) := by
  refine ⟨fun ops => ?_, fun pairs => holdsHighest_iff hN⟩
  have hempty : Sound (empty N : LimitedMap κ ν) := ⟨mirrors_empty, Or.inr (Nat.zero_le N)⟩
  have hstart : ∃ m, some (empty N : LimitedMap κ ν) = some m ∧ Sound m := ⟨_, rfl, hempty⟩
  refine Runs.forall_prefix_iff_meets (I := fun s => ∃ m, s = some m ∧ Sound m)
    (fun s op hs => ?_) ops hstart
  obtain ⟨m, rfl, hm⟩ := hs
  refine (apply_sound_iff hm op).trans ⟨fun h m' hm' => ?_, fun h => h m rfl⟩
  exact Option.some.inj hm' ▸ h

theorem limits_iff_two : ∃ m, insertAll (empty 3) [("a", 5), ("b", (7 : ℤ))] = some m ∧
    HoldsHighest [("a", 5), ("b", (7 : ℤ))] m :=
  ((limits_iff 3 (by decide)).2 _ (by decide)).2 (by decide)

/-- A map for one element fails at its first, one for two holds one, and one whose maximum was set
to its size grows beyond it. -/
theorem fewer_or_more :
    (empty 1 : LimitedMap ℕ ℤ).insert 0 5 = none ∧
      (¬∃ m, insertAll (empty 2 : LimitedMap ℕ ℤ) [(0, 5), (1, 7)] = some m ∧
        HoldsHighest [(0, 5), (1, 7)] m) ∧
      (Runs.run step (some (empty 3 : LimitedMap ℕ ℤ))
          [.insert 0 5, .insert 1 7, .maxSize 2, .insert 2 9]).map
        (fun m => (m.map.size, m.nMaxSize)) = some (3, 2) := by
  refine ⟨rfl, ?_, by decide⟩
  rw [holdsHighest_iff (by decide) (by decide)]
  decide

end LimitedMap

end Scrypta
