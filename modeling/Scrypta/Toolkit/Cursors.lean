import Scrypta.Toolkit.Dict

/-! Cursors into an ordered map. A cursor is the key that it stands at, or nothing at the end.
A sweep moves its cursor on before it looks at an entry, so that the entry may be erased. -/

namespace Dict

variable {κ ν σ : Type*} [DecidableEq κ]

def size (m : Dict κ ν) : ℕ := m.toList.length

theorem size_erase {m : Dict κ ν} {k : κ} {v : ν} (h : m.find k = some v) :
    (m.erase k).size + 1 = m.size := by
  have hlength := (toList_of_find h).length_eq
  rw [List.length_cons] at hlength
  exact hlength.symm

theorem size_set_of_none {m : Dict κ ν} {k : κ} (h : m.find k = none) (v : ν) :
    (m.set k v).size = m.size + 1 := by
  have hset := (toList_set m k v).length_eq
  have hfree := (toList_of_find_none h).length_eq
  rw [List.length_cons, ← hfree] at hset
  exact hset

theorem size_set_of_find {m : Dict κ ν} {k : κ} {w : ν} (h : m.find k = some w) (v : ν) :
    (m.set k v).size = m.size := by
  have hset := (toList_set m k v).length_eq
  have hfound := (toList_of_find h).length_eq
  rw [List.length_cons] at hset hfound
  exact hset.trans hfound.symm

section Cursors

variable (rank : κ → ℕ)

def first (m : Dict κ ν) : Option κ := (m.inOrder rank).head?.map Prod.fst

/-- The first key that is not before `k`. -/
def lowerBound (m : Dict κ ν) (k : κ) : Option κ :=
  ((m.inOrder rank).find? fun e => rank k ≤ rank e.1).map Prod.fst

/-- The first key after `k`. -/
def upperBound (m : Dict κ ν) (k : κ) : Option κ :=
  ((m.inOrder rank).find? fun e => rank k < rank e.1).map Prod.fst

/-- A sweep of `turns` entries at most; `none` is a cursor at an entry that is gone, or a sweep
that did not come to the end. -/
def sweep (map : σ → Dict κ ν) (body : κ → ν → σ → σ) : ℕ → Option κ → σ → Option σ
  | _, none, s => some s
  | 0, some _, _ => none
  | turns + 1, some k, s =>
    match (map s).find k with
    | none => none
    | some v => sweep map body turns ((map s).upperBound rank k) (body k v s)

variable {rank} {m : Dict κ ν}

theorem exists_of_first {k : κ} (h : m.first rank = some k) : ∃ v, m.find k = some v := by
  obtain ⟨e, he, rfl⟩ := Option.map_eq_some_iff.1 h
  exact ⟨e.2, mem_inOrder.1 (List.mem_of_mem_head? he)⟩

theorem exists_of_lowerBound {k k' : κ} (h : m.lowerBound rank k = some k') :
    ∃ v, m.find k' = some v := by
  obtain ⟨e, he, rfl⟩ := Option.map_eq_some_iff.1 h
  exact ⟨e.2, mem_inOrder.1 (List.mem_of_find?_eq_some he)⟩

omit [DecidableEq κ] in
theorem length_inOrder (rank : κ → ℕ) (m : Dict κ ν) : (m.inOrder rank).length = m.size :=
  (List.perm_insertionSort _ _).length_eq

omit [DecidableEq κ] in
theorem first_isSome (rank : κ → ℕ) (h : 0 < m.size) : ∃ k, m.first rank = some k := by
  rw [← length_inOrder rank] at h
  obtain ⟨e, he⟩ := List.exists_mem_of_length_pos h
  cases hhead : (m.inOrder rank).head? with
  | none => rw [List.head?_eq_none_iff.1 hhead] at he; cases he
  | some e => exact ⟨e.1, by rw [first, hhead]; rfl⟩

/-- The keys of rank `r` and more, in order. -/
theorem find?_eq_head? (hrank : Function.Injective rank) {l : List (κ × ν)} {r : ℕ}
    (hl : l.Pairwise fun a b => rank a.1 < rank b.1)
    (hmem : ∀ k v, (k, v) ∈ l ↔ m.find k = some v ∧ r ≤ rank k) :
    (m.inOrder rank).find? (fun e => r ≤ rank e.1) = l.head? := by
  have hsorted := (inOrder_pairwise hrank m).filter fun e => decide (r ≤ rank e.1)
  have hsame : ∀ e, e ∈ (m.inOrder rank).filter (fun e => decide (r ≤ rank e.1)) ↔ e ∈ l := by
    intro e
    rw [List.mem_filter, hmem e.1 e.2, decide_eq_true_iff]
    exact and_congr_left fun _ => mem_inOrder
  rw [← List.head?_filter, eq_of_pairwise_rank hsorted hl hsame]

/-- A body that changes the map at no key but its own is run at each entry that was there. -/
theorem sweep_eq_foldl {map : σ → Dict κ ν} {body : κ → ν → σ → σ} {I : σ → Prop}
    (hrank : Function.Injective rank)
    (hbody : ∀ k v s, I s → (map s).find k = some v →
      I (body k v s) ∧ ∀ k', k' ≠ k → (map (body k v s)).find k' = (map s).find k')
    {l : List (κ × ν)} {r turns : ℕ} {s : σ} (hl : l.Pairwise fun a b => rank a.1 < rank b.1)
    (hmem : ∀ k v, (k, v) ∈ l ↔ (map s).find k = some v ∧ r ≤ rank k) (hs : I s)
    (hturns : l.length ≤ turns) :
    sweep rank map body turns (l.head?.map Prod.fst) s =
      some (l.foldl (fun s e => body e.1 e.2 s) s) := by
  induction l generalizing r turns s with
  | nil => cases turns <;> rfl
  | cons e l ih =>
    obtain ⟨k, v⟩ := e
    obtain ⟨hbefore, hl⟩ := List.pairwise_cons.1 hl
    obtain ⟨turns, rfl⟩ := Nat.exists_eq_add_of_le' (Nat.le_trans (Nat.le_add_left 1 _) hturns)
    obtain ⟨hfind, hr⟩ := (hmem k v).1 List.mem_cons_self
    obtain ⟨hnext, hframe⟩ := hbody k v s hs hfind
    have hrest : ∀ k' v', (k', v') ∈ l ↔ (map s).find k' = some v' ∧ rank k + 1 ≤ rank k' := by
      intro k' v'
      constructor
      · intro hk'
        exact ⟨((hmem k' v').1 (List.mem_cons_of_mem _ hk')).1, hbefore _ hk'⟩
      · rintro ⟨hk', hlt⟩
        rcases List.mem_cons.1 ((hmem k' v').2 ⟨hk', by omega⟩) with heq | hin
        · obtain ⟨rfl, rfl⟩ := Prod.mk.inj heq
          omega
        · exact hin
    have hcursor : (map s).upperBound rank k = l.head?.map Prod.fst := by
      rw [← find?_eq_head? hrank hl hrest]
      rfl
    have hlater : ∀ k' v', (k', v') ∈ l ↔
        (map (body k v s)).find k' = some v' ∧ rank k + 1 ≤ rank k' := by
      intro k' v'
      rw [hrest]
      refine and_congr_left fun hlt => ?_
      rw [hframe k' fun heq => by rw [heq] at hlt; omega]
    rw [List.head?_cons, Option.map_some, sweep, hfind]
    dsimp only
    rw [hcursor, List.foldl_cons]
    exact ih hl hlater hnext (by rw [List.length_cons] at hturns; omega)

/-- A whole sweep takes the entries in order. -/
theorem sweep_first {map : σ → Dict κ ν} {body : κ → ν → σ → σ} {I : σ → Prop}
    (hrank : Function.Injective rank)
    (hbody : ∀ k v s, I s → (map s).find k = some v →
      I (body k v s) ∧ ∀ k', k' ≠ k → (map (body k v s)).find k' = (map s).find k')
    {s : σ} (hs : I s) :
    sweep rank map body (map s).size ((map s).first rank) s =
      some (((map s).inOrder rank).foldl (fun s e => body e.1 e.2 s) s) :=
  sweep_eq_foldl hrank hbody (inOrder_pairwise hrank _)
    (fun _ _ => mem_inOrder.trans (and_iff_left (Nat.zero_le _)).symm) hs
    (length_inOrder _ _).le

end Cursors

end Dict
