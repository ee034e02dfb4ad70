import Mathlib.Algebra.GroupWithZero.Nat
import Mathlib.Algebra.Order.BigOperators.Group.List
import Mathlib.Algebra.Order.Group.Int
import Mathlib.Algebra.Ring.Int.Defs
import Mathlib.Data.List.AList
import Mathlib.Data.List.Sort

/-! Finite maps with the operations of an ordered map of a systems language:
`insert` keeps a value that is already there, `set` overwrites it. Every operation
is described by what `find` returns afterwards. -/

structure Dict (κ ν : Type*) where
  entries : AList (fun _ : κ => ν)

namespace Dict

variable {κ ν : Type*} [DecidableEq κ]

def empty : Dict κ ν := ⟨∅⟩

def find (m : Dict κ ν) (k : κ) : Option ν := m.entries.lookup k

def count (m : Dict κ ν) (k : κ) : Bool := (m.find k).isSome

def set (m : Dict κ ν) (k : κ) (v : ν) : Dict κ ν := ⟨m.entries.insert k v⟩

def insert (m : Dict κ ν) (k : κ) (v : ν) : Dict κ ν :=
  if m.count k then m else m.set k v

def erase (m : Dict κ ν) (k : κ) : Dict κ ν := ⟨m.entries.erase k⟩

def modify (m : Dict κ ν) (k : κ) (f : ν → ν) : Dict κ ν :=
  match m.find k with
  | some v => m.set k (f v)
  | none => m

def toList (m : Dict κ ν) : List (κ × ν) := m.entries.entries.map fun e => (e.1, e.2)

/-- Insert one value under each key that is still free. -/
def insertAll (m : Dict κ ν) (ks : List κ) (v : ν) : Dict κ ν :=
  ks.foldl (fun m k => m.insert k v) m

def eraseAll (m : Dict κ ν) (ks : List κ) : Dict κ ν := ks.foldl erase m

/-- Erase every value with the given property. -/
def eraseWhere (m : Dict κ ν) (p : ν → Bool) : Dict κ ν :=
  m.eraseAll ((m.toList.filter fun e => p e.2).map Prod.fst)

/-- Change every value. -/
def mapValues (m : Dict κ ν) (f : ν → ν) : Dict κ ν :=
  (m.toList.map Prod.fst).foldl (fun m k => m.modify k f) m

@[simp] theorem find_empty (k : κ) : (empty : Dict κ ν).find k = none :=
  AList.lookup_empty k

theorem find_set (m : Dict κ ν) (k k' : κ) (v : ν) :
    (m.set k v).find k' = if k' = k then some v else m.find k' := by
  unfold find set
  split
  · next h => subst h; exact AList.lookup_insert m.entries
  · next h => exact AList.lookup_insert_ne h

theorem find_set_cases {m : Dict κ ν} {k k' : κ} {v w : ν} (h : (m.set k v).find k' = some w) :
    k' = k ∧ w = v ∨ k' ≠ k ∧ m.find k' = some w := by
  rw [find_set] at h
  split at h
  · next hk => exact Or.inl ⟨hk, (Option.some.inj h).symm⟩
  · next hk => exact Or.inr ⟨hk, h⟩

@[simp] theorem find_set_self (m : Dict κ ν) (k : κ) (v : ν) :
    (m.set k v).find k = some v := by
  simp [find_set]

theorem find_erase (m : Dict κ ν) (k k' : κ) :
    (m.erase k).find k' = if k' = k then none else m.find k' := by
  unfold find erase
  split
  · next h => subst h; exact AList.lookup_erase k' m.entries
  · next h => exact AList.lookup_erase_ne h

theorem count_eq_true {m : Dict κ ν} {k : κ} : m.count k = true ↔ ∃ v, m.find k = some v := by
  simp [count, Option.isSome_iff_exists]

theorem count_eq_false {m : Dict κ ν} {k : κ} : m.count k = false ↔ m.find k = none := by
  simp [count]

theorem find_insert (m : Dict κ ν) (k k' : κ) (v : ν) :
    (m.insert k v).find k' =
      if k' = k then some ((m.find k).getD v) else m.find k' := by
  unfold insert
  by_cases hc : m.count k = true
  · obtain ⟨w, hw⟩ := count_eq_true.mp hc
    rw [if_pos hc]
    split
    · next h => rw [h, hw]; rfl
    · rfl
  · have hn : m.find k = none := count_eq_false.mp (by simpa using hc)
    rw [if_neg hc, find_set, hn]
    rfl

theorem find_insert_of_none {m : Dict κ ν} {k : κ} (v : ν) (h : m.find k = none) (k' : κ) :
    (m.insert k v).find k' = if k' = k then some v else m.find k' := by
  rw [find_insert, h]
  rfl

theorem find_insert_ne {m : Dict κ ν} {k k' : κ} (v : ν) (h : k' ≠ k) :
    (m.insert k v).find k' = m.find k' := by
  rw [find_insert, if_neg h]

theorem find_insert_of_some {m : Dict κ ν} {k k' : κ} {w : ν} (v : ν)
    (h : m.find k' = some w) : (m.insert k v).find k' = some w := by
  rw [find_insert]
  split
  · next hk => rw [← hk, h]; rfl
  · exact h

theorem insert_of_some {m : Dict κ ν} {k : κ} {w : ν} (v : ν) (h : m.find k = some w) :
    m.insert k v = m := by
  unfold insert
  rw [if_pos (count_eq_true.mpr ⟨w, h⟩)]

theorem find_modify (m : Dict κ ν) (k k' : κ) (f : ν → ν) :
    (m.modify k f).find k' = if k' = k then (m.find k).map f else m.find k' := by
  cases h : m.find k with
  | none =>
    simp only [modify, h]
    by_cases hk : k' = k
    · simp [hk, h]
    · simp [hk]
  | some v =>
    simp only [modify, h]
    exact find_set m k k' (f v)

theorem find_modify_cases {m : Dict κ ν} {k k' : κ} {f : ν → ν} {w : ν}
    (h : (m.modify k f).find k' = some w) :
    (k' = k ∧ ∃ v, m.find k' = some v ∧ w = f v) ∨ k' ≠ k ∧ m.find k' = some w := by
  rw [find_modify] at h
  split at h
  · next hk =>
    obtain ⟨v, hv, rfl⟩ := Option.map_eq_some_iff.mp h
    exact .inl ⟨hk, v, hk ▸ hv, rfl⟩
  · next hk => exact .inr ⟨hk, h⟩

theorem find_insertAll (m : Dict κ ν) (ks : List κ) (v : ν) (k : κ) :
    (m.insertAll ks v).find k =
      if k ∈ ks then some ((m.find k).getD v) else m.find k := by
  induction ks generalizing m with
  | nil => simp [insertAll]
  | cons a ks ih =>
    have hcons : m.insertAll (a :: ks) v = (m.insert a v).insertAll ks v := rfl
    rw [hcons, ih, find_insert]
    by_cases ha : k = a
    · subst ha
      simp
    · simp [ha]

theorem find_eraseAll (m : Dict κ ν) (ks : List κ) (k : κ) :
    (m.eraseAll ks).find k = if k ∈ ks then none else m.find k := by
  induction ks generalizing m with
  | nil => simp [eraseAll]
  | cons a ks ih =>
    have hcons : m.eraseAll (a :: ks) = (m.erase a).eraseAll ks := rfl
    rw [hcons, ih, find_erase]
    by_cases ha : k = a
    · subst ha
      simp
    · simp [ha]

theorem mem_toList {m : Dict κ ν} {k : κ} {v : ν} :
    (k, v) ∈ m.toList ↔ m.find k = some v := by
  have h := AList.mem_lookup_iff (a := k) (b := v) (s := m.entries)
  rw [show m.find k = m.entries.lookup k from rfl, ← Option.mem_def, h]
  simp only [toList, List.mem_map]
  constructor
  · rintro ⟨⟨a, b⟩, hmem, heq⟩
    cases heq
    exact hmem
  · intro hmem
    exact ⟨⟨k, v⟩, hmem, rfl⟩

theorem find_eraseWhere (m : Dict κ ν) (p : ν → Bool) (k : κ) :
    (m.eraseWhere p).find k = (m.find k).filter fun v => !p v := by
  have hmem : k ∈ (m.toList.filter fun e => p e.2).map Prod.fst ↔
      ∃ v, m.find k = some v ∧ p v = true := by
    constructor
    · intro hk
      obtain ⟨e, he, rfl⟩ := List.mem_map.mp hk
      obtain ⟨hmem, hp⟩ := List.mem_filter.mp he
      exact ⟨e.2, mem_toList.mp hmem, hp⟩
    · intro hk
      obtain ⟨v, hv, hp⟩ := hk
      exact List.mem_map.mpr ⟨(k, v), List.mem_filter.mpr ⟨mem_toList.mpr hv, hp⟩, rfl⟩
  rw [eraseWhere, find_eraseAll]
  cases hv : m.find k with
  | none => simp
  | some v =>
    cases hp : p v with
    | false =>
      rw [if_neg fun hk => by
        obtain ⟨w, hw, hpw⟩ := hmem.mp hk
        obtain rfl : v = w := Option.some.inj (hv.symm.trans hw)
        rw [hp] at hpw
        exact Bool.noConfusion hpw]
      simp [Option.filter, hp]
    | true =>
      rw [if_pos (hmem.mpr ⟨v, hv, hp⟩)]
      simp [Option.filter, hp]

omit [DecidableEq κ] in
theorem nodup_keys (m : Dict κ ν) : (m.toList.map Prod.fst).Nodup := by
  have h : m.toList.map Prod.fst = m.entries.entries.keys := by
    simp only [toList, List.map_map, List.keys]
    rfl
  rw [h]
  exact m.entries.nodupKeys

theorem find_foldl_modify (f : ν → ν) {ks : List κ} (hks : ks.Nodup) (m : Dict κ ν) (k : κ) :
    (ks.foldl (fun m k => m.modify k f) m).find k =
      if k ∈ ks then (m.find k).map f else m.find k := by
  induction ks generalizing m with
  | nil => simp
  | cons k' ks ih =>
    obtain ⟨hne, hks⟩ := List.nodup_cons.mp hks
    rw [List.foldl_cons, ih hks, find_modify]
    by_cases hk : k = k'
    · subst hk
      rw [if_neg hne, if_pos rfl, if_pos List.mem_cons_self]
    · simp only [List.mem_cons, hk, false_or, if_false]

theorem find_mapValues (m : Dict κ ν) (f : ν → ν) (k : κ) :
    (m.mapValues f).find k = (m.find k).map f := by
  rw [mapValues, find_foldl_modify f m.nodup_keys]
  split
  · rfl
  · next hk =>
    cases hv : m.find k with
    | none => rfl
    | some v => exact absurd (List.mem_map.mpr ⟨(k, v), mem_toList.mpr hv, rfl⟩) hk

/-- A pass over the entries of `c` that at each of them changes only the entry of `m` under the
same key. -/
theorem find_foldlM_local {μ : Type*} {f : Dict κ ν → κ × μ → Option (Dict κ ν)}
    {P : κ → Option ν → μ → Prop} {g : Option ν → μ → Option ν}
    (hf : ∀ m k v, P k (m.find k) v → ∃ m', f m (k, v) = some m' ∧
      ∀ k', m'.find k' = if k' = k then g (m.find k) v else m.find k')
    {l : List (κ × μ)} (hl : (l.map Prod.fst).Nodup) (m : Dict κ ν)
    (hP : ∀ k v, (k, v) ∈ l → P k (m.find k) v) :
    ∃ m', l.foldlM f m = some m' ∧
      (∀ k v, (k, v) ∈ l → m'.find k = g (m.find k) v) ∧
      ∀ k, k ∉ l.map Prod.fst → m'.find k = m.find k := by
  induction l generalizing m with
  | nil => exact ⟨m, rfl, nofun, fun _ _ => rfl⟩
  | cons e l ih =>
    obtain ⟨k₀, v₀⟩ := e
    obtain ⟨hk₀, hl⟩ := List.nodup_cons.mp hl
    obtain ⟨m₁, hm₁, hfind⟩ := hf m k₀ v₀ (hP k₀ v₀ List.mem_cons_self)
    have hne : ∀ k, k ∈ l.map Prod.fst → m₁.find k = m.find k := fun k hk => by
      rw [hfind, if_neg]
      rintro rfl
      exact hk₀ hk
    obtain ⟨m', hm', hin, hout⟩ := ih hl m₁ fun k v hkv => by
      rw [hne k (List.mem_map.mpr ⟨(k, v), hkv, rfl⟩)]
      exact hP k v (List.mem_cons_of_mem _ hkv)
    refine ⟨m', ?_, fun k v hkv => ?_, fun k hk => ?_⟩
    · rw [List.foldlM_cons, hm₁]
      exact hm'
    · rcases List.mem_cons.mp hkv with heq | hkv
      · cases heq
        rw [hout k₀ hk₀, hfind, if_pos rfl]
      · rw [hin k v hkv, hne k (List.mem_map.mpr ⟨(k, v), hkv, rfl⟩)]
    · rw [List.map_cons, List.mem_cons, not_or] at hk
      rw [hout k hk.2, hfind, if_neg hk.1]

theorem find_foldlM_toList {μ : Type*} {f : Dict κ ν → κ × μ → Option (Dict κ ν)}
    {P : κ → Option ν → μ → Prop} {g : Option ν → μ → Option ν}
    (hf : ∀ m k v, P k (m.find k) v → ∃ m', f m (k, v) = some m' ∧
      ∀ k', m'.find k' = if k' = k then g (m.find k) v else m.find k')
    (c : Dict κ μ) (m : Dict κ ν) (hP : ∀ k v, c.find k = some v → P k (m.find k) v) :
    ∃ m', c.toList.foldlM f m = some m' ∧ ∀ k, m'.find k =
      match c.find k with
      | some v => g (m.find k) v
      | none => m.find k := by
  obtain ⟨m', hm', hin, hout⟩ :=
    find_foldlM_local hf c.nodup_keys m fun k v hkv => hP k v (mem_toList.mp hkv)
  refine ⟨m', hm', fun k => ?_⟩
  cases hk : c.find k with
  | some v => exact hin k v (mem_toList.mpr hk)
  | none =>
    refine hout k fun hmem => ?_
    obtain ⟨⟨k', v⟩, hkv, rfl⟩ := List.mem_map.mp hmem
    rw [mem_toList.mp hkv] at hk
    cases hk

theorem find_foldl_toList {μ : Type*} {f : Dict κ ν → κ × μ → Dict κ ν}
    {g : Option ν → μ → Option ν} (hf : ∀ m k v k',
      (f m (k, v)).find k' = if k' = k then g (m.find k) v else m.find k')
    (c : Dict κ μ) (m : Dict κ ν) (k : κ) : (c.toList.foldl f m).find k =
      match c.find k with
      | some v => g (m.find k) v
      | none => m.find k := by
  obtain ⟨m', hm', hfind⟩ := find_foldlM_toList (f := fun m e => some (f m e))
    (P := fun _ _ _ => True) (fun m k v _ => ⟨_, rfl, hf m k v⟩) c m fun _ _ _ => trivial
  obtain rfl : c.toList.foldl f m = m' :=
    Option.some.inj ((List.foldlM_pure (m := Option)).symm.trans hm')
  exact hfind k

/-- Every key of one map gets a value that is computed from its value there. -/
theorem find_foldl_set {μ : Type*} (f : κ → μ → ν) (c : Dict κ μ) (m : Dict κ ν) (k : κ) :
    (c.toList.foldl (fun t e => t.set e.1 (f e.1 e.2)) m).find k =
      match c.find k with
      | some v => some (f k v)
      | none => m.find k := by
  have hlist (l : List (κ × μ)) (m : Dict κ ν) (hl : (l.map Prod.fst).Nodup) :
      (∀ v, (k, v) ∈ l →
        (l.foldl (fun t e => t.set e.1 (f e.1 e.2)) m).find k = some (f k v)) ∧
      (k ∉ l.map Prod.fst → (l.foldl (fun t e => t.set e.1 (f e.1 e.2)) m).find k = m.find k) := by
    induction l generalizing m with
    | nil => exact ⟨fun v hv => absurd hv List.not_mem_nil, fun _ => rfl⟩
    | cons e l ih =>
      obtain ⟨he, hl⟩ := List.nodup_cons.mp hl
      obtain ⟨hin, hout⟩ := ih (m.set e.1 (f e.1 e.2)) hl
      refine ⟨fun v hv => ?_, fun hk => ?_⟩
      · rcases List.mem_cons.mp hv with rfl | hv
        · rw [List.foldl_cons, hout he, find_set_self]
        · exact hin v hv
      · rw [List.map_cons, List.mem_cons, not_or] at hk
        rw [List.foldl_cons, hout hk.2, find_set, if_neg hk.1]
  obtain ⟨hin, hout⟩ := hlist c.toList m c.nodup_keys
  cases hk : c.find k with
  | some v => exact hin v (mem_toList.mpr hk)
  | none =>
    refine hout fun hmem => ?_
    obtain ⟨⟨k', v⟩, hkv, rfl⟩ := List.mem_map.mp hmem
    cases hk.symm.trans (mem_toList.mp hkv)

/-- Two maps that answer alike list the same entries. -/
theorem toList_perm {m m' : Dict κ ν} (h : ∀ k, m.find k = m'.find k) :
    m.toList.Perm m'.toList := by
  refine (List.perm_ext_iff_of_nodup (nodup_keys m).of_map (nodup_keys m').of_map).mpr ?_
  rintro ⟨k, v⟩
  rw [mem_toList, mem_toList, h]

/-! Sums over the values. -/

def sum (f : ν → ℤ) (m : Dict κ ν) : ℤ := (m.toList.map fun e => f e.2).sum

omit [DecidableEq κ] in
theorem sum_perm {m : Dict κ ν} {l : List (κ × ν)} (h : m.toList.Perm l) (f : ν → ℤ) :
    m.sum f = (l.map fun e => f e.2).sum :=
  (h.map _).sum_eq

theorem toList_set (m : Dict κ ν) (k : κ) (v : ν) :
    (m.set k v).toList.Perm ((k, v) :: (m.erase k).toList) := by
  have hnew : (k, v) ∉ (m.erase k).toList := by
    rw [mem_toList, find_erase, if_pos rfl]
    exact nofun
  refine (List.perm_ext_iff_of_nodup (nodup_keys _).of_map
    (List.nodup_cons.mpr ⟨hnew, (nodup_keys _).of_map⟩)).mpr ?_
  rintro ⟨k', v'⟩
  rw [mem_toList, List.mem_cons, mem_toList, find_set, find_erase]
  by_cases hk : k' = k
  · subst hk
    simp [eq_comm]
  · simp [hk]

theorem toList_of_find {m : Dict κ ν} {k : κ} {v : ν} (h : m.find k = some v) :
    m.toList.Perm ((k, v) :: (m.erase k).toList) := by
  refine List.Perm.trans (toList_perm fun k' => ?_) (toList_set m k v)
  rw [find_set]
  split
  · next hk => rw [hk, h]
  · rfl

theorem toList_of_find_none {m : Dict κ ν} {k : κ} (h : m.find k = none) :
    m.toList.Perm (m.erase k).toList := by
  refine toList_perm fun k' => ?_
  rw [find_erase]
  split
  · next hk => rw [hk, h]
  · rfl

/-- Overwriting a value changes the sum by the new value less the one that was there. -/
theorem sum_set (m : Dict κ ν) (k : κ) (v : ν) (f : ν → ℤ) :
    (m.set k v).sum f = m.sum f - ((m.find k).map f).getD 0 + f v := by
  rw [sum_perm (toList_set m k v), List.map_cons, List.sum_cons]
  cases h : m.find k with
  | none =>
    rw [sum_perm (toList_of_find_none h)]
    simp only [Option.map_none, Option.getD_none]
    omega
  | some w =>
    rw [sum_perm (toList_of_find h), List.map_cons, List.sum_cons]
    simp only [Option.map_some, Option.getD_some]
    omega

theorem sum_set_of_find {m : Dict κ ν} {k : κ} {w : ν} (h : m.find k = some w) (v : ν)
    (f : ν → ℤ) : (m.set k v).sum f = m.sum f - f w + f v := by
  rw [sum_set, h]
  rfl

theorem sum_set_of_none {m : Dict κ ν} {k : κ} (h : m.find k = none) (v : ν) (f : ν → ℤ) :
    (m.set k v).sum f = m.sum f + f v := by
  rw [sum_set, h]
  simp only [Option.map_none, Option.getD_none]
  omega

theorem sum_erase {m : Dict κ ν} {k : κ} {v : ν} (h : m.find k = some v) (f : ν → ℤ) :
    (m.erase k).sum f = m.sum f - f v := by
  rw [sum_perm (toList_of_find h), List.map_cons, List.sum_cons]
  simp only [sum]
  omega

theorem sum_of_find_none {m : Dict κ ν} (h : ∀ k, m.find k = none) (f : ν → ℤ) : m.sum f = 0 := by
  have hempty : m.toList = [] := by
    refine List.eq_nil_iff_forall_not_mem.mpr ?_
    rintro ⟨k, v⟩ hmem
    rw [mem_toList, h k] at hmem
    cases hmem
  rw [sum, hempty]
  rfl

theorem sum_nonneg {m : Dict κ ν} {f : ν → ℤ} (h : ∀ k v, m.find k = some v → 0 ≤ f v) :
    0 ≤ m.sum f := by
  refine List.sum_nonneg fun x hx => ?_
  obtain ⟨e, he, rfl⟩ := List.mem_map.mp hx
  exact h e.1 e.2 (mem_toList.mp he)

section InOrder

variable (rank : κ → ℕ)

/-- The entries as an iteration meets them, by the rank of the key. -/
def inOrder (m : Dict κ ν) : List (κ × ν) :=
  m.toList.insertionSort fun a b => rank a.1 ≤ rank b.1

variable {rank} {m : Dict κ ν}

theorem mem_inOrder {k : κ} {v : ν} : (k, v) ∈ m.inOrder rank ↔ m.find k = some v := by
  unfold inOrder
  rw [List.mem_insertionSort, mem_toList]

omit [DecidableEq κ] in
/-- Different keys have different ranks, so that no two entries tie. -/
theorem inOrder_pairwise (hrank : Function.Injective rank) (m : Dict κ ν) :
    (m.inOrder rank).Pairwise fun a b => rank a.1 < rank b.1 := by
  have hle : (m.inOrder rank).Pairwise fun a b => rank a.1 ≤ rank b.1 := by
    have htotal : Std.Total fun a b : κ × ν => rank a.1 ≤ rank b.1 := ⟨fun a b => le_total _ _⟩
    have htrans : IsTrans (κ × ν) fun a b => rank a.1 ≤ rank b.1 := ⟨fun a b c => le_trans⟩
    exact List.pairwise_insertionSort _ _
  have hne : (m.inOrder rank).Pairwise fun a b => a.1 ≠ b.1 := by
    have hkeys : ((m.inOrder rank).map Prod.fst).Nodup :=
      ((List.perm_insertionSort _ _).map _).nodup_iff.2 m.nodup_keys
    exact List.pairwise_map.1 hkeys
  exact (hle.and hne).imp fun h => lt_of_le_of_ne h.1 fun heq => h.2 (hrank heq)

omit [DecidableEq κ] in
/-- Two lists in the order of the ranks that have the same entries are one. -/
theorem eq_of_pairwise_rank {l l' : List (κ × ν)}
    (hl : l.Pairwise fun a b => rank a.1 < rank b.1)
    (hl' : l'.Pairwise fun a b => rank a.1 < rank b.1) (hmem : ∀ e, e ∈ l ↔ e ∈ l') : l = l' := by
  have hnodup : ∀ {l : List (κ × ν)}, l.Pairwise (fun a b => rank a.1 < rank b.1) → l.Nodup :=
    fun h => h.imp fun hlt heq => absurd hlt (by rw [heq]; exact lt_irrefl _)
  have hperm : l.Perm l' := (List.perm_ext_iff_of_nodup (hnodup hl) (hnodup hl')).2 hmem
  exact hperm.eq_of_pairwise (fun a b _ _ hab hba => absurd (hab.trans hba) (lt_irrefl _)) hl hl'

/-- A list with these entries in this order is that iteration. -/
theorem eq_inOrder {l : List (κ × ν)} (hrank : Function.Injective rank)
    (hl : l.Pairwise fun a b => rank a.1 < rank b.1)
    (hmem : ∀ k v, (k, v) ∈ l ↔ m.find k = some v) : l = m.inOrder rank :=
  eq_of_pairwise_rank hl (inOrder_pairwise hrank m) fun e =>
    (hmem e.1 e.2).trans mem_inOrder.symm

end InOrder

end Dict
