import Mathlib.Data.List.Basic
import Mathlib.Data.Nat.Log
import Mathlib.Tactic.Ring

/-! Hash trees over a row of leaves in which a node without a right neighbour is combined with
itself; the rows of such a tree; and partial trees: trees of which some branches are cut off and
known by their hash alone. A partial tree is written as two streams, of flag bits and of hashes. -/

namespace MerkleTree

variable {α : Type*}

/-- The number of nodes at a height over `n` leaves. -/
def width (n height : ℕ) : ℕ := (n + 2 ^ height - 1) / 2 ^ height

@[simp] theorem width_zero (n : ℕ) : width n 0 = n := by simp [width]

theorem lt_width {n height pos : ℕ} : pos < width n height ↔ pos * 2 ^ height < n := by
  have hpow := Nat.two_pow_pos height
  rw [width, Nat.lt_iff_add_one_le, Nat.le_div_iff_mul_le hpow, Nat.add_mul]
  omega

theorem width_succ (n height : ℕ) : width n (height + 1) = (width n height + 1) / 2 := by
  have hpow := Nat.two_pow_pos height
  have hadd : (n + 2 ^ height - 1) / 2 ^ height + 1 =
      (n + 2 ^ height - 1 + 2 ^ height) / 2 ^ height :=
    (Nat.add_div_right _ hpow).symm
  rw [width, width, hadd, Nat.div_div_eq_div_mul, ← pow_succ]
  congr 1
  rw [pow_succ]
  omega

theorem width_le_one {n height : ℕ} (h : n ≤ 2 ^ height) : width n height ≤ 1 := by
  by_contra hlt
  have := lt_width.mp (Nat.lt_of_not_le hlt)
  omega

theorem two_mul_pow (pos height : ℕ) : pos * 2 ^ (height + 1) = 2 * pos * 2 ^ height := by
  rw [pow_succ]
  ring

theorem two_mul_lt_width {n height pos : ℕ} (h : pos < width n (height + 1)) :
    2 * pos < width n height :=
  lt_width.mpr (two_mul_pow pos height ▸ lt_width.mp h)

theorem width_pos {n : ℕ} (hn : 0 < n) (height : ℕ) : 0 < width n height :=
  lt_width.mpr (by omega)

/-- Steps from a height up to the first one with a single node, at most `fuel` of them. -/
def heightFrom (n : ℕ) : ℕ → ℕ → ℕ
  | 0, height => height
  | fuel + 1, height => if 1 < width n height then heightFrom n fuel (height + 1) else height

theorem width_heightFrom {n fuel height : ℕ} (h : n ≤ 2 ^ (height + fuel)) :
    width n (heightFrom n fuel height) ≤ 1 := by
  induction fuel generalizing height with
  | zero => exact width_le_one h
  | succ fuel ih =>
    rw [heightFrom]
    split
    · exact ih (by rwa [Nat.add_right_comm, Nat.add_assoc])
    · next hone => omega

theorem heightFrom_le {n k : ℕ} (h : n ≤ 2 ^ k) {height : ℕ} (hk : height ≤ k) (fuel : ℕ) :
    heightFrom n fuel height ≤ k := by
  induction fuel generalizing height with
  | zero => exact hk
  | succ fuel ih =>
    rw [heightFrom]
    split
    · next hwide =>
      have hne : height ≠ k := by
        rintro rfl
        exact absurd (width_le_one h) (by omega)
      exact ih (by omega)
    · exact hk

section Nodes

variable (combine : α → α → α) (leaf : ℕ → α) (n : ℕ)

def nodeHash : ℕ → ℕ → α
  | 0, pos => leaf pos
  | height + 1, pos =>
    combine (nodeHash height (2 * pos))
      (if 2 * pos + 1 < width n height then nodeHash height (2 * pos + 1)
      else nodeHash height (2 * pos))

/-- The pairs that are combined for a node and the nodes under it. -/
def nodePairs : ℕ → ℕ → List (α × α)
  | 0, _ => []
  | height + 1, pos =>
    (nodeHash combine leaf n height (2 * pos),
      if 2 * pos + 1 < width n height then nodeHash combine leaf n height (2 * pos + 1)
      else nodeHash combine leaf n height (2 * pos)) ::
    (nodePairs height (2 * pos) ++
      if 2 * pos + 1 < width n height then nodePairs height (2 * pos + 1) else [])

end Nodes

/-- A cut branch is a stub; a node has one branch when there is no right neighbour. -/
inductive Partial (α : Type*)
  | leaf (marked : Bool) (hash : α)
  | stub (hash : α)
  | only (left : Partial α)
  | both (left right : Partial α)

namespace Partial

def bits : Partial α → List Bool
  | .leaf marked _ => [marked]
  | .stub _ => [false]
  | .only left => true :: left.bits
  | .both left right => true :: (left.bits ++ right.bits)

def hashes : Partial α → List α
  | .leaf _ hash => [hash]
  | .stub hash => [hash]
  | .only left => left.hashes
  | .both left right => left.hashes ++ right.hashes

def marks : Partial α → List α
  | .leaf marked hash => if marked then [hash] else []
  | .stub _ => []
  | .only left => left.marks
  | .both left right => left.marks ++ right.marks

def root (combine : α → α → α) : Partial α → α
  | .leaf _ hash => hash
  | .stub hash => hash
  | .only left => combine (left.root combine) (left.root combine)
  | .both left right => combine (left.root combine) (right.root combine)

/-- The pairs that are combined for the root, those of the branches first. -/
def pairs (combine : α → α → α) : Partial α → List (α × α)
  | .leaf _ _ => []
  | .stub _ => []
  | .only left => left.pairs combine ++ [(left.root combine, left.root combine)]
  | .both left right =>
    left.pairs combine ++ right.pairs combine ++ [(left.root combine, right.root combine)]

/-- The shape is that of the tree over `n` leaves from the node at the place on. -/
def Fits (n : ℕ) : ℕ → ℕ → Partial α → Prop
  | 0, _, .leaf _ _ => True
  | _ + 1, _, .stub _ => True
  | height + 1, pos, .only left => ¬ 2 * pos + 1 < width n height ∧ left.Fits n height (2 * pos)
  | height + 1, pos, .both left right =>
    2 * pos + 1 < width n height ∧ left.Fits n height (2 * pos) ∧
      right.Fits n height (2 * pos + 1)
  | _, _, _ => False

theorem length_hashes_le_bits (t : Partial α) : t.hashes.length ≤ t.bits.length := by
  induction t with
  | leaf marked hash => exact le_rfl
  | stub hash => exact le_rfl
  | only left ih => exact ih.trans (Nat.le_succ _)
  | both left right ihl ihr =>
    simp only [hashes, bits, List.length_append, List.length_cons]
    omega

theorem length_bits_lt {n height pos : ℕ} {t : Partial α} (ht : t.Fits n height pos) :
    t.bits.length < 2 ^ (height + 1) := by
  induction height generalizing pos t with
  | zero =>
    cases t with
    | leaf marked hash => exact Nat.one_lt_two
    | stub hash => exact ht.elim
    | only left => exact ht.elim
    | both left right => exact ht.elim
  | succ height ih =>
    have hpow := Nat.two_pow_pos (height + 1)
    have hnext : 2 ^ (height + 1 + 1) = 2 * 2 ^ (height + 1) := by rw [pow_succ, Nat.mul_comm]
    cases t with
    | leaf marked hash => exact ht.elim
    | stub hash =>
      simp only [bits, List.length_singleton]
      omega
    | only left =>
      have := ih ht.2
      simp only [bits, List.length_cons]
      omega
    | both left right =>
      have hl := ih ht.2.1
      have hr := ih ht.2.2
      simp only [bits, List.length_cons, List.length_append]
      omega

/-- There are no more hashes than leaves under the node. -/
theorem length_hashes_le {n height pos : ℕ} {t : Partial α} (ht : t.Fits n height pos)
    (hpos : pos < width n height) :
    t.hashes.length + pos * 2 ^ height ≤ min n ((pos + 1) * 2 ^ height) := by
  induction height generalizing pos t with
  | zero =>
    cases t with
    | leaf marked hash =>
      rw [width_zero] at hpos
      simp only [hashes, List.length_singleton, pow_zero]
      omega
    | stub hash => exact ht.elim
    | only left => exact ht.elim
    | both left right => exact ht.elim
  | succ height ih =>
    have hlt := lt_width.mp hpos
    have hpow := Nat.two_pow_pos height
    have htwo := two_mul_pow pos height
    have hnext : (pos + 1) * 2 ^ (height + 1) = (2 * pos + 1 + 1) * 2 ^ height :=
      two_mul_pow (pos + 1) height
    have hmid : (2 * pos + 1) * 2 ^ height = 2 * pos * 2 ^ height + 2 ^ height := by ring
    have hend : (2 * pos + 1 + 1) * 2 ^ height = 2 * pos * 2 ^ height + 2 * 2 ^ height := by ring
    have hleft := two_mul_lt_width hpos
    cases t with
    | leaf marked hash => exact ht.elim
    | stub hash =>
      simp only [hashes, List.length_singleton]
      omega
    | only left =>
      have := ih ht.2 hleft
      simp only [hashes]
      omega
    | both left right =>
      have hl := ih ht.2.1 hleft
      have hr := ih ht.2.2 ht.1
      simp only [hashes, List.length_append]
      omega

/-- Where no two pairs in play are combined to the same value, a partial tree with the root of a
tree of its shape marks nothing but leaves of that tree. -/
theorem marks_of_root_eq {combine : α → α → α} {leaf : ℕ → α} {n height pos : ℕ} {t : Partial α}
    (ht : t.Fits n height pos) (hpos : pos < width n height)
    (hinj : ∀ p ∈ t.pairs combine, ∀ q ∈ nodePairs combine leaf n height pos,
      combine p.1 p.2 = combine q.1 q.2 → p = q)
    (hroot : t.root combine = nodeHash combine leaf n height pos) :
    ∀ a ∈ t.marks, ∃ i < n, a = leaf i := by
  induction height generalizing pos t with
  | zero =>
    cases t with
    | leaf marked hash =>
      intro a ha
      have hhash : hash = leaf pos := hroot
      rw [marks] at ha
      split at ha
      · exact ⟨pos, by simpa using hpos, (List.mem_singleton.mp ha).trans hhash⟩
      · cases ha
    | stub hash => exact ht.elim
    | only left => exact ht.elim
    | both left right => exact ht.elim
  | succ height ih =>
    have hleft := two_mul_lt_width hpos
    cases t with
    | leaf marked hash => exact ht.elim
    | stub hash => exact nofun
    | only left =>
      obtain ⟨hend, hfits⟩ := ht
      rw [nodePairs, if_neg hend, if_neg hend, List.append_nil] at hinj
      rw [nodeHash, if_neg hend] at hroot
      have heq := hinj _ (List.mem_append_right _ List.mem_cons_self) _ List.mem_cons_self hroot
      change ∀ a ∈ left.marks, _
      exact ih hfits hleft (fun p hp q hq => hinj p (List.mem_append_left _ hp) q
        (List.mem_cons_of_mem _ hq)) (Prod.mk.inj heq).1
    | both left right =>
      obtain ⟨hright, hfitsl, hfitsr⟩ := ht
      rw [nodePairs, if_pos hright, if_pos hright] at hinj
      rw [nodeHash, if_pos hright] at hroot
      have heq := hinj _ (List.mem_append_right _ List.mem_cons_self) _ List.mem_cons_self hroot
      obtain ⟨heql, heqr⟩ := Prod.mk.inj heq
      intro a ha
      rcases List.mem_append.mp ha with ha | ha
      · exact ih hfitsl hleft (fun p hp q hq => hinj p
          (List.mem_append_left _ (List.mem_append_left _ hp)) q
          (List.mem_cons_of_mem _ (List.mem_append_left _ hq))) heql a ha
      · exact ih hfitsr hright (fun p hp q hq => hinj p
          (List.mem_append_left _ (List.mem_append_right _ hp)) q
          (List.mem_cons_of_mem _ (List.mem_append_right _ hq))) heqr a ha

end Partial

/-! The rows of a tree, each of which is paired up for the next. -/

section Rows

/-- Neighbours form pairs, and a last one without a neighbour is paired with itself. -/
def couples : List α → List (α × α)
  | [] => []
  | [a] => [(a, a)]
  | a :: b :: l => (a, b) :: couples l

theorem getElem?_couples (l : List α) (i : ℕ) :
    (couples l)[i]? = l[2 * i]?.map fun a => (a, (l[2 * i + 1]?).getD a) := by
  induction l using couples.induct generalizing i with
  | case1 => rfl
  | case2 a =>
    cases i with
    | zero => rfl
    | succ i => rfl
  | case3 a b l ih =>
    cases i with
    | zero => rfl
    | succ i => exact ih i

variable {combine : α → α → α} {leaf leaf' : ℕ → α} {n n' : ℕ}

theorem width_le_width (h : n ≤ n') (height : ℕ) : width n height ≤ width n' height :=
  Nat.div_le_div_right (by omega)

variable (combine leaf n) in
def row (height : ℕ) : List α :=
  (List.range (width n height)).map (nodeHash combine leaf n height)

variable (combine leaf n) in
/-- The two nodes under a node. -/
def nodePair (height pos : ℕ) : α × α :=
  (nodeHash combine leaf n height (2 * pos),
    if 2 * pos + 1 < width n height then nodeHash combine leaf n height (2 * pos + 1)
    else nodeHash combine leaf n height (2 * pos))

theorem length_row (height : ℕ) : (row combine leaf n height).length = width n height := by
  rw [row, List.length_map, List.length_range]

theorem getElem?_row (height : ℕ) {pos : ℕ} (hpos : pos < width n height) :
    (row combine leaf n height)[pos]? = some (nodeHash combine leaf n height pos) := by
  rw [row, List.getElem?_map, List.getElem?_range hpos, Option.map_some]

theorem couples_row (height : ℕ) : couples (row combine leaf n height) =
    (List.range (width n (height + 1))).map (nodePair combine leaf n height) := by
  refine List.ext_getElem? fun i => ?_
  rw [getElem?_couples, List.getElem?_map]
  by_cases hi : i < width n (height + 1)
  · rw [getElem?_row height (two_mul_lt_width hi), List.getElem?_range hi, Option.map_some,
      Option.map_some, nodePair]
    split
    · next hright => rw [getElem?_row height hright, Option.getD_some]
    · next hend =>
      have hnone : (row combine leaf n height)[2 * i + 1]? = none :=
        List.getElem?_eq_none (by rwa [length_row, ← not_lt])
      rw [hnone, Option.getD_none]
  · have hend : width n height ≤ 2 * i := by
      have hsucc := width_succ n height
      omega
    have hnode : (row combine leaf n height)[2 * i]? = none :=
      List.getElem?_eq_none (by rwa [length_row])
    have hpos : (List.range (width n (height + 1)))[i]? = none :=
      List.getElem?_eq_none (by rwa [List.length_range, ← not_lt])
    rw [hnode, hpos]
    rfl

theorem row_succ (height : ℕ) : row combine leaf n (height + 1) =
    (couples (row combine leaf n height)).map fun p => combine p.1 p.2 := by
  rw [couples_row, List.map_map]
  rfl

/-- Every node over the leaves is combined for the root. -/
theorem nodePair_mem {k d pos : ℕ} (hpos : pos < width n (k + 1)) :
    nodePair combine leaf n k pos ∈ nodePairs combine leaf n (k + 1 + d) (pos / 2 ^ d) := by
  induction d with
  | zero =>
    rw [Nat.pow_zero, Nat.div_one]
    exact List.mem_cons_self
  | succ d ih =>
    have hhalf : pos / 2 ^ (d + 1) = pos / 2 ^ d / 2 := by
      rw [Nat.pow_succ, Nat.div_div_eq_div_mul]
    have hwidth : pos / 2 ^ d < width n (k + 1 + d) := by
      rw [lt_width] at hpos ⊢
      refine Nat.lt_of_le_of_lt ?_ hpos
      rw [Nat.pow_add, Nat.mul_comm (2 ^ (k + 1)), ← Nat.mul_assoc]
      exact Nat.mul_le_mul_right _ (Nat.div_mul_le_self _ _)
    change _ ∈ nodePairs combine leaf n (k + 1 + d + 1) _
    rw [hhalf, nodePairs]
    refine List.mem_cons_of_mem _ (List.mem_append.2 ?_)
    rcases Nat.mod_two_eq_zero_or_one (pos / 2 ^ d) with heven | hodd
    · have hleft : 2 * (pos / 2 ^ d / 2) = pos / 2 ^ d := by omega
      rw [hleft]
      exact Or.inl ih
    · have hright : 2 * (pos / 2 ^ d / 2) + 1 = pos / 2 ^ d := by omega
      rw [hright, if_pos hwidth]
      exact Or.inr ih

theorem mem_nodePairs_of_couples {k height : ℕ} (hk : k < height) {p : α × α}
    (hp : p ∈ couples (row combine leaf n k)) (hone : width n height ≤ 1) :
    p ∈ nodePairs combine leaf n height 0 := by
  rw [couples_row, List.mem_map] at hp
  obtain ⟨pos, hpos, rfl⟩ := hp
  rw [List.mem_range] at hpos
  obtain ⟨d, rfl⟩ : ∃ d, height = k + 1 + d := ⟨height - (k + 1), by omega⟩
  have hn : ¬1 * 2 ^ (k + 1 + d) < n := fun hlt => absurd (lt_width.2 hlt) (by omega)
  have hsmall : pos / 2 ^ d = 0 := by
    rw [lt_width] at hpos
    rw [Nat.one_mul, Nat.pow_add, Nat.mul_comm] at hn
    exact Nat.div_eq_of_lt (Nat.lt_of_mul_lt_mul_right (hpos.trans_le (not_lt.1 hn)))
  rw [← hsmall]
  exact nodePair_mem hpos

theorem eq_of_map_combine {P l l' : List (α × α)}
    (hfree : ∀ p ∈ P, ∀ q ∈ P, combine p.1 p.2 = combine q.1 q.2 → p = q) (hl : ∀ p ∈ l, p ∈ P)
    (hl' : ∀ p ∈ l', p ∈ P)
    (h : (l.map fun p => combine p.1 p.2) = l'.map fun p => combine p.1 p.2) : l = l' := by
  induction l generalizing l' with
  | nil => exact (List.map_eq_nil_iff.1 h.symm).symm
  | cons p l ih =>
    cases l' with
    | nil => cases h
    | cons q l' =>
      obtain ⟨hhead, htail⟩ := List.cons.inj h
      rw [hfree p (hl p List.mem_cons_self) q (hl' q List.mem_cons_self) hhead,
        ih (fun p hp => hl p (List.mem_cons_of_mem _ hp))
          (fun q hq => hl' q (List.mem_cons_of_mem _ hq)) htail]

theorem nodePair_zero_mem (hn : 0 < n) (height : ℕ) :
    nodePair combine leaf n height 0 ∈ couples (row combine leaf n height) := by
  rw [couples_row]
  exact List.mem_map.2 ⟨0, List.mem_range.2 (width_pos hn _), rfl⟩

/-- Where no leaf is a combined value, the first nodes of two trees differ at different heights. -/
theorem height_eq_of_nodeHash_eq {P : List (α × α)}
    (hfree : ∀ p ∈ P, ∀ q ∈ P, combine p.1 p.2 = combine q.1 q.2 → p = q) (hn : 0 < n)
    (hn' : 0 < n') (hleaf : ∀ p ∈ P, combine p.1 p.2 ≠ leaf 0)
    (hleaf' : ∀ p ∈ P, combine p.1 p.2 ≠ leaf' 0) {k k' : ℕ}
    (hk : ∀ j < k, ∀ p ∈ couples (row combine leaf n j), p ∈ P)
    (hk' : ∀ j < k', ∀ p ∈ couples (row combine leaf' n' j), p ∈ P)
    (h : nodeHash combine leaf n k 0 = nodeHash combine leaf' n' k' 0) : k = k' := by
  induction k generalizing k' with
  | zero =>
    cases k' with
    | zero => rfl
    | succ k' =>
      have hmem := hk' k' (Nat.lt_succ_self _) _ (nodePair_zero_mem hn' k')
      exact absurd h.symm (hleaf _ hmem)
  | succ k ih =>
    have hmem := hk k (Nat.lt_succ_self _) _ (nodePair_zero_mem hn k)
    cases k' with
    | zero => exact absurd h (hleaf' _ hmem)
    | succ k' =>
      have hmem' := hk' k' (Nat.lt_succ_self _) _ (nodePair_zero_mem hn' k')
      have hpair := hfree _ hmem _ hmem' h
      rw [ih (fun j hj => hk j (Nat.lt_succ_of_lt hj)) (fun j hj => hk' j (Nat.lt_succ_of_lt hj))
        (Prod.mk.inj hpair).1]

/-- The last two are a pair of equals. -/
def endsTwice [DecidableEq α] : List α → Bool
  | a :: b :: l => if l.isEmpty then a == b else endsTwice l
  | _ => false

variable [DecidableEq α]

theorem endsTwice_iff (l : List α) :
    endsTwice l = true ↔ ∃ k, l.length = 2 * k + 2 ∧ l[2 * k]? = l[2 * k + 1]? := by
  induction l using endsTwice.induct with
  | case1 a b l hnil =>
    obtain rfl := List.isEmpty_iff.1 hnil
    rw [endsTwice, if_pos hnil, beq_iff_eq]
    constructor
    · rintro rfl
      exact ⟨0, rfl, rfl⟩
    · rintro ⟨k, hlen, heq⟩
      obtain rfl : k = 0 := by
        simp only [List.length_cons, List.length_nil] at hlen
        omega
      exact Option.some.inj heq
  | case2 a b l hne ih =>
    rw [endsTwice, if_neg hne, ih]
    constructor
    · rintro ⟨k, hlen, heq⟩
      exact ⟨k + 1, by rw [List.length_cons, List.length_cons, hlen]; rfl, heq⟩
    · rintro ⟨k, hlen, heq⟩
      have hpos : 0 < l.length := List.length_pos_iff.2 fun hnil => hne (List.isEmpty_iff.2 hnil)
      rw [List.length_cons, List.length_cons] at hlen
      obtain ⟨k, rfl⟩ : ∃ j, k = j + 1 := ⟨k - 1, by omega⟩
      exact ⟨k, by omega, heq⟩
  | case3 l hshort =>
    rw [endsTwice]
    · refine iff_of_false Bool.false_ne_true ?_
      rintro ⟨k, hlen, -⟩
      match l with
      | [] => cases hlen
      | [a] =>
        rw [List.length_singleton] at hlen
        omega
      | a :: b :: l => exact hshort a b l rfl
    · exact hshort

theorem endsTwice_cons_cons (a b : α) {l : List α} (h : endsTwice l = true) :
    endsTwice (a :: b :: l) = true := by
  cases l with
  | nil => cases h
  | cons c l => exact h

/-- A row is what its pairs come from, or one of two rows with the same pairs has its last element
twice. -/
theorem eq_of_couples_eq {xs ys : List α} (h : couples xs = couples ys) :
    xs = ys ∨ (xs.length + 1 = ys.length ∧ endsTwice ys = true) ∨
      (ys.length + 1 = xs.length ∧ endsTwice xs = true) := by
  induction xs using couples.induct generalizing ys with
  | case1 =>
    match ys with
    | [] => exact Or.inl rfl
    | [c] => cases h
    | c :: d :: ys => cases h
  | case2 a =>
    match ys with
    | [] => cases h
    | [c] =>
      obtain ⟨⟨rfl, -⟩, -⟩ := List.cons.inj h |>.imp_left Prod.mk.inj
      exact Or.inl rfl
    | c :: d :: ys =>
      obtain ⟨hpair, hrest⟩ := List.cons.inj h
      obtain ⟨rfl, rfl⟩ := Prod.mk.inj hpair
      match ys with
      | [] => exact Or.inr (Or.inl ⟨rfl, by simp [endsTwice]⟩)
      | [e] => cases hrest
      | e :: f :: ys => cases hrest
  | case3 a b xs ih =>
    match ys with
    | [] => cases h
    | [c] =>
      obtain ⟨hpair, hrest⟩ := List.cons.inj h
      obtain ⟨rfl, rfl⟩ := Prod.mk.inj hpair
      match xs with
      | [] => exact Or.inr (Or.inr ⟨rfl, by simp [endsTwice]⟩)
      | [e] => cases hrest
      | e :: f :: xs => cases hrest
    | c :: d :: ys =>
      obtain ⟨hpair, hrest⟩ := List.cons.inj h
      obtain ⟨rfl, rfl⟩ := Prod.mk.inj hpair
      rcases ih hrest with rfl | ⟨hlen, htwice⟩ | ⟨hlen, htwice⟩
      · exact Or.inl rfl
      · refine Or.inr (Or.inl ⟨?_, endsTwice_cons_cons a b htwice⟩)
        simp only [List.length_cons]
        omega
      · refine Or.inr (Or.inr ⟨?_, endsTwice_cons_cons a b htwice⟩)
        simp only [List.length_cons]
        omega

/-- Below equal rows of two trees the leaves are equal, or somewhere the wider of two different
rows ends with one value twice. -/
theorem leaves_of_row_eq {P : List (α × α)}
    (hfree : ∀ p ∈ P, ∀ q ∈ P, combine p.1 p.2 = combine q.1 q.2 → p = q) {k : ℕ}
    (hk : ∀ j < k, ∀ p ∈ couples (row combine leaf n j), p ∈ P)
    (hk' : ∀ j < k, ∀ p ∈ couples (row combine leaf' n' j), p ∈ P)
    (h : row combine leaf n k = row combine leaf' n' k) :
    row combine leaf n 0 = row combine leaf' n' 0 ∨ ∃ j < k,
      (width n j + 1 = width n' j ∧ endsTwice (row combine leaf' n' j) = true) ∨
        (width n' j + 1 = width n j ∧ endsTwice (row combine leaf n j) = true) := by
  induction k with
  | zero => exact Or.inl h
  | succ k ih =>
    rw [row_succ, row_succ] at h
    have hcouples := eq_of_map_combine hfree (hk k (Nat.lt_succ_self _))
      (hk' k (Nat.lt_succ_self _)) h
    have hrows := eq_of_couples_eq hcouples
    rw [length_row, length_row] at hrows
    rcases hrows with heq | hdiffer
    · rcases ih (fun j hj => hk j (Nat.lt_succ_of_lt hj)) (fun j hj => hk' j (Nat.lt_succ_of_lt hj))
        heq with hleaves | ⟨j, hj, hends⟩
      · exact Or.inl hleaves
      · exact Or.inr ⟨j, Nat.lt_succ_of_lt hj, hends⟩
    · exact Or.inr ⟨k, Nat.lt_succ_self _, hdiffer⟩

end Rows

/-! The partial tree that keeps the way to every marked leaf. -/

section Prune

variable (combine : α → α → α) (leaf : ℕ → α) (marked : ℕ → Bool) (n : ℕ)

/-- One of the leaves under the node is marked. -/
def anyMarked (height pos : ℕ) : Bool :=
  (List.range' (pos * 2 ^ height) (2 ^ height)).any fun p => decide (p < n) && marked p

def prune : ℕ → ℕ → Partial α
  | 0, pos => .leaf (anyMarked marked n 0 pos) (leaf pos)
  | height + 1, pos =>
    if anyMarked marked n (height + 1) pos then
      if 2 * pos + 1 < width n height then
        .both (prune height (2 * pos)) (prune height (2 * pos + 1))
      else .only (prune height (2 * pos))
    else .stub (nodeHash combine leaf n (height + 1) pos)

/-- The marked leaves under the node, in order. -/
def markedUnder (height pos : ℕ) : List α :=
  ((List.range' (pos * 2 ^ height) (2 ^ height)).filter fun p =>
    decide (p < n) && marked p).map leaf

variable {combine leaf marked n}

theorem prune_fits (height pos : ℕ) :
    (prune combine leaf marked n height pos).Fits n height pos := by
  induction height generalizing pos with
  | zero => trivial
  | succ height ih =>
    rw [prune]
    split
    · split
      · next hright => exact ⟨hright, ih _, ih _⟩
      · next hright => exact ⟨hright, ih _⟩
    · trivial

theorem root_prune (height pos : ℕ) :
    (prune combine leaf marked n height pos).root combine =
      nodeHash combine leaf n height pos := by
  induction height generalizing pos with
  | zero => rfl
  | succ height ih =>
    rw [prune]
    split
    · split
      · next hright => rw [Partial.root, ih, ih, nodeHash, if_pos hright]
      · next hright => rw [Partial.root, ih, nodeHash, if_neg hright]
    · rfl

theorem markedUnder_succ (height pos : ℕ) :
    markedUnder leaf marked n (height + 1) pos =
      markedUnder leaf marked n height (2 * pos) ++
        markedUnder leaf marked n height (2 * pos + 1) := by
  have hstart := two_mul_pow pos height
  have hnext : (2 * pos + 1) * 2 ^ height = 2 * pos * 2 ^ height + 2 ^ height := by ring
  have hlen : 2 ^ (height + 1) = 2 ^ height + 2 ^ height := by rw [pow_succ]; ring
  rw [markedUnder, markedUnder, markedUnder, ← List.map_append, ← List.filter_append, hstart, hlen,
    hnext, List.range'_append_1]

theorem markedUnder_eq_nil {height pos : ℕ} (h : anyMarked marked n height pos = false) :
    markedUnder leaf marked n height pos = [] := by
  rw [markedUnder, List.map_eq_nil_iff, List.filter_eq_nil_iff]
  exact fun p hp hmarked => by simpa [hmarked] using List.any_eq_false.mp h p hp

theorem markedUnder_of_end {height pos : ℕ} (h : ¬ pos < width n height) :
    markedUnder leaf marked n height pos = [] := by
  rw [lt_width] at h
  rw [markedUnder, List.map_eq_nil_iff, List.filter_eq_nil_iff]
  intro p hp hmarked
  have hle := (List.mem_range'_1.mp hp).1
  have hlt : p < n := by simpa using (Bool.and_eq_true_iff.mp hmarked).1
  omega

theorem marks_prune {height pos : ℕ} (hpos : pos < width n height) :
    (prune combine leaf marked n height pos).marks = markedUnder leaf marked n height pos := by
  induction height generalizing pos with
  | zero =>
    have hlt : pos < n := by simpa using hpos
    cases hmarked : marked pos <;>
      simp [prune, Partial.marks, markedUnder, anyMarked, hmarked, hlt]
  | succ height ih =>
    have hleft := two_mul_lt_width hpos
    rw [prune]
    split
    · split
      · next hright => rw [Partial.marks, ih hleft, ih hright, markedUnder_succ]
      · next hright =>
        rw [Partial.marks, ih hleft, markedUnder_succ, markedUnder_of_end hright, List.append_nil]
    · next hnone => exact (markedUnder_eq_nil (Bool.eq_false_iff.mpr hnone)).symm

end Prune

end MerkleTree
