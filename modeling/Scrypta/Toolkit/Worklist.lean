import Mathlib.Data.List.Nodup
import Mathlib.Logic.Relation

/-! A queue of items that are taken out of a collection. An item that is still there is taken out,
and the items that it names come to the end of the queue; the others are passed over. In the end
everything is gone that the first items reach. -/

namespace Worklist

open Relation (ReflTransGen)

variable {σ α ρ : Type*}

/-- How an item is taken out of a collection, and the items that it names. The collection
shrinks. -/
structure Machine (σ α ρ : Type*) where
  take : σ → α → Option (ρ × List α × σ)
  size : σ → ℕ
  shrinks : ∀ {s a r next s'}, take s a = some (r, next, s') → size s' < size s

namespace Machine

/-- The loop: what was taken out, in that order, and what is left. -/
def sweep (m : Machine σ α ρ) : List α → σ → List ρ × σ
  | [], s => ([], s)
  | a :: queue, s =>
    match h : m.take s a with
    | none => sweep m queue s
    | some (r, next, s') =>
      have := m.shrinks h
      (r :: (sweep m (queue ++ next) s').1, (sweep m (queue ++ next) s').2)
termination_by queue s => (m.size s, queue.length)

variable {m : Machine σ α ρ} {s s' : σ} {a b : α} {queue next : List α} {r : ρ}

theorem sweep_nil : m.sweep [] s = ([], s) := by rw [sweep]

theorem sweep_of_none (h : m.take s a = none) : m.sweep (a :: queue) s = m.sweep queue s := by
  rw [sweep]
  split
  · rfl
  · next heq =>
    rw [h] at heq
    cases heq

theorem sweep_of_some (h : m.take s a = some (r, next, s')) :
    m.sweep (a :: queue) s =
      (r :: (m.sweep (queue ++ next) s').1, (m.sweep (queue ++ next) s').2) := by
  rw [sweep]
  split
  · next heq =>
    rw [h] at heq
    cases heq
  · next heq =>
    rw [h] at heq
    cases heq
    rfl

/-- What the steps of a machine mean: `has` says what is in a collection, and the edges, which no
step changes, which items an item names. -/
structure Follows (m : Machine σ α ρ) (Inv : σ → Prop) (has : σ → α → Prop) (E : α → α → Prop)
    (label : ρ → α) : Prop where
  absent : ∀ {s a}, Inv s → (m.take s a = none ↔ ¬has s a)
  label : ∀ {s a r next s'}, Inv s → m.take s a = some (r, next, s') → label r = a
  keeps : ∀ {s a r next s'}, Inv s → m.take s a = some (r, next, s') → Inv s'
  leaves : ∀ {s a r next s'}, Inv s → m.take s a = some (r, next, s') →
    ∀ b, has s' b ↔ has s b ∧ b ≠ a
  names : ∀ {s a r next s'}, Inv s → m.take s a = some (r, next, s') →
    ∀ b, has s b → (b ∈ next ↔ E a b)

/-- The items of a collection that an item of it reaches. -/
def Reaches (has : σ → α → Prop) (E : α → α → Prop) (s : σ) (a b : α) : Prop :=
  has s a ∧ ReflTransGen (fun x y => E x y ∧ has s y) a b

variable {Inv : σ → Prop} {has : σ → α → Prop} {E : α → α → Prop} {label : ρ → α}

/-- A way to an item that is still there avoids what was taken out, or goes on from an item that
was named. -/
theorem Follows.reroute (hm : m.Follows Inv has E label) (hs : Inv s)
    (h : m.take s a = some (r, next, s')) (hb : b ≠ a) {x : α} (hx : has s x)
    (hpath : ReflTransGen (fun x y => E x y ∧ has s y) x b) :
    x ≠ a ∧ Reaches has E s' x b ∨ ∃ y ∈ next, Reaches has E s' y b := by
  have hleaves := hm.leaves hs h
  induction hpath using ReflTransGen.head_induction_on with
  | refl => exact .inl ⟨hb, (hleaves b).mpr ⟨hx, hb⟩, .refl⟩
  | @head x z hstep hrest ih =>
    rcases ih hstep.2 with ⟨hz, hreach⟩ | hnext
    · by_cases hxa : x = a
      · have hnamed : z ∈ next := (hm.names hs h z hstep.2).mpr (hxa ▸ hstep.1)
        exact .inr ⟨z, hnamed, hreach⟩
      · exact .inl ⟨hxa, (hleaves x).mpr ⟨hx, hxa⟩, .head ⟨hstep.1, hreach.1⟩ hreach.2⟩
    · exact .inr hnext

theorem Follows.reaches_mono (hm : m.Follows Inv has E label) (hs : Inv s)
    (h : m.take s a = some (r, next, s')) {x : α} (hreach : Reaches has E s' x b) :
    Reaches has E s x b := by
  have hleaves := hm.leaves hs h
  exact ⟨((hleaves x).mp hreach.1).1,
    hreach.2.lift id fun _ y hy => ⟨hy.1, ((hleaves y).mp hy.2).1⟩⟩

/-- One step of the queue, for an item that it does not take out. -/
theorem Follows.reaches_step (hm : m.Follows Inv has E label) (hs : Inv s)
    (h : m.take s a = some (r, next, s')) (hb : b ≠ a) :
    (∃ x ∈ a :: queue, Reaches has E s x b) ↔ ∃ x ∈ queue ++ next, Reaches has E s' x b := by
  have hhas : has s a := by
    by_contra hno
    rw [(hm.absent hs).mpr hno] at h
    cases h
  constructor
  · intro hex
    obtain ⟨x, hx, hreach⟩ := hex
    rcases hm.reroute hs h hb hreach.1 hreach.2 with ⟨hxa, hrest⟩ | ⟨y, hy, hrest⟩
    · exact ⟨x, List.mem_append_left _ ((List.mem_cons.mp hx).resolve_left hxa), hrest⟩
    · exact ⟨y, List.mem_append_right _ hy, hrest⟩
  · intro hex
    obtain ⟨x, hx, hreach⟩ := hex
    have hback := hm.reaches_mono hs h hreach
    rcases List.mem_append.mp hx with hx | hx
    · exact ⟨x, List.mem_cons_of_mem _ hx, hback⟩
    · exact ⟨a, List.mem_cons_self, hhas, .head ⟨(hm.names hs h x hback.1).mp hx, hback.1⟩ hback.2⟩

theorem Follows.reaches_absent (hno : ¬has s a) :
    (∃ x ∈ a :: queue, Reaches has E s x b) ↔ ∃ x ∈ queue, Reaches has E s x b := by
  constructor
  · intro hex
    obtain ⟨x, hx, hreach⟩ := hex
    rcases List.mem_cons.mp hx with rfl | hx
    · exact absurd hreach.1 hno
    · exact ⟨x, hx, hreach⟩
  · intro hex
    obtain ⟨x, hx, hreach⟩ := hex
    exact ⟨x, List.mem_cons_of_mem _ hx, hreach⟩

theorem Follows.sweep_inv (hm : m.Follows Inv has E label) (hs : Inv s) :
    Inv (m.sweep queue s).2 := by
  induction queue, s using sweep.induct m with
  | case1 s =>
    rw [sweep_nil]
    exact hs
  | case2 a queue s h ih =>
    rw [sweep_of_none h]
    exact ih hs
  | case3 a queue s r next s' h _ ih =>
    rw [sweep_of_some h]
    exact ih (hm.keeps hs h)

/-- What is left is what the queue does not reach. -/
theorem Follows.sweep_has (hm : m.Follows Inv has E label) (hs : Inv s) (b : α) :
    has (m.sweep queue s).2 b ↔ has s b ∧ ¬∃ a ∈ queue, Reaches has E s a b := by
  induction queue, s using sweep.induct m with
  | case1 s => simp [sweep_nil]
  | case2 a queue s h ih =>
    rw [sweep_of_none h, ih hs, reaches_absent ((hm.absent hs).mp h)]
  | case3 a queue s r next s' h _ ih =>
    rw [sweep_of_some h, ih (hm.keeps hs h), hm.leaves hs h b]
    by_cases hb : b = a
    · have hself : has s b → ∃ x ∈ a :: queue, Reaches has E s x b := fun hhas =>
        ⟨a, List.mem_cons_self, hb ▸ hhas, hb ▸ .refl⟩
      exact iff_of_false (fun hall => hall.1.2 hb) fun hall => hall.2 (hself hall.1)
    · rw [hm.reaches_step hs h hb]
      exact and_congr_left fun _ => and_iff_left hb

/-- What was taken out is what is gone. -/
theorem Follows.mem_sweep (hm : m.Follows Inv has E label) (hs : Inv s) (b : α) :
    b ∈ (m.sweep queue s).1.map label ↔ has s b ∧ ¬has (m.sweep queue s).2 b := by
  induction queue, s using sweep.induct m with
  | case1 s => simp [sweep_nil]
  | case2 a queue s h ih =>
    rw [sweep_of_none h]
    exact ih hs
  | case3 a queue s r next s' h _ ih =>
    have hhas : has s a := by
      by_contra hno
      rw [(hm.absent hs).mpr hno] at h
      cases h
    rw [sweep_of_some h, List.map_cons, List.mem_cons, hm.label hs h, ih (hm.keeps hs h),
      hm.leaves hs h b]
    constructor
    · intro hmem
      rcases hmem with hb | hmem
      · rw [hb]
        exact ⟨hhas, fun hleft => ((hm.leaves hs h a).mp ((hm.sweep_has (hm.keeps hs h) a).mp
          hleft).1).2 rfl⟩
      · exact ⟨hmem.1.1, hmem.2⟩
    · intro hmem
      by_cases hb : b = a
      · exact .inl hb
      · exact .inr ⟨⟨hmem.1, hb⟩, hmem.2⟩

theorem Follows.forall_sweep {P : ρ → Prop} (hm : m.Follows Inv has E label)
    (hP : ∀ {s a r next s'}, Inv s → m.take s a = some (r, next, s') → P r) (hs : Inv s) :
    ∀ r ∈ (m.sweep queue s).1, P r := by
  induction queue, s using sweep.induct m with
  | case1 s => simp [sweep_nil]
  | case2 a queue s h ih =>
    rw [sweep_of_none h]
    exact ih hs
  | case3 a queue s r next s' h _ ih =>
    rw [sweep_of_some h]
    exact List.forall_mem_cons.mpr ⟨hP hs h, ih (hm.keeps hs h)⟩

/-- Nothing is taken out twice. -/
theorem Follows.nodup_sweep (hm : m.Follows Inv has E label) (hs : Inv s) :
    ((m.sweep queue s).1.map label).Nodup := by
  induction queue, s using sweep.induct m with
  | case1 s => simp [sweep_nil]
  | case2 a queue s h ih =>
    rw [sweep_of_none h]
    exact ih hs
  | case3 a queue s r next s' h _ ih =>
    rw [sweep_of_some h, List.map_cons, hm.label hs h, List.nodup_cons,
      hm.mem_sweep (hm.keeps hs h), hm.leaves hs h]
    exact ⟨fun hmem => hmem.1.2 rfl, ih (hm.keeps hs h)⟩

end Machine

end Worklist
