import Mathlib.Data.List.Find
import Scrypta.Ancestors

/-! The array behind the active chain, and the locators by which two nodes find the block at which
their chains part. The entries of the array are pointers into the block index, where an entry is
known by its hash. -/

namespace Scrypta.Locators

open BlockIndex (BlockMap Entry Forest Params Process Ancestor HighestCommon built forest_built
  parent heightOf getAncestor heightOf_of_find parent_of_find)

section Definitions

variable (m : BlockMap)

/-- `vector::resize`: new places hold the null pointer. -/
def resize (vChain : List (Option Uint256)) (n : ℕ) : List (Option Uint256) :=
  vChain.take n ++ List.replicate (n - vChain.length) none

/-- From the new tip down, up to the first place that is right already. `none` is a place outside
of the array. -/
def setTipLoop : ℕ → List (Option Uint256) → Option Uint256 → Option (List (Option Uint256))
  | _, vChain, none => some vChain
  | 0, _, some _ => none
  | turns + 1, vChain, some pindex =>
    match vChain[heightOf m pindex]? with
    | none => none
    | some held =>
      if held = some pindex then some vChain
      else setTipLoop turns (vChain.set (heightOf m pindex) (some pindex)) (parent m pindex)

def setTip (vChain : List (Option Uint256)) : Option Uint256 → Option (List (Option Uint256))
  | none => some []
  | some pindex =>
    setTipLoop m (heightOf m pindex + 1) (resize vChain (heightOf m pindex + 1)) (some pindex)

/-- A pointer to an entry of the index. -/
abbrev Pointer : Type := { hash : Uint256 // (m.find hash).isSome }

/-- The calls of `SetTip` one after the other, from the empty chain. -/
def setTips (tips : List (Option (Pointer m))) : Option (List (Option Uint256)) :=
  tips.foldlM (fun vChain tip => setTip m vChain (tip.map (·.1))) []

/-- `operator[]` -/
def atHeight (vChain : List (Option Uint256)) (nHeight : ℤ) : Option Uint256 :=
  if nHeight < 0 then none else vChain[nHeight.toNat]?.join

def contains (vChain : List (Option Uint256)) (pindex : Uint256) : Bool :=
  atHeight vChain (heightOf m pindex) == some pindex

def chainTip (vChain : List (Option Uint256)) : Option Uint256 := vChain.getLast?.join

def chainHeight (vChain : List (Option Uint256)) : ℤ := vChain.length - 1

/-- The loop of `GetLocator`, up to the genesis block. -/
def locatorLoop (vChain : List (Option Uint256)) :
    ℕ → List Uint256 → ℕ → Option Uint256 → Option (List Uint256)
  | _, vHave, _, none => some vHave
  | 0, _, _, some _ => none
  | turns + 1, vHave, nStep, some pindex =>
    let vHave := vHave ++ [pindex]
    if heightOf m pindex = 0 then some vHave
    else
      let nHeight : ℤ := max ((heightOf m pindex : ℤ) - nStep) 0
      let next := if contains m vChain pindex then atHeight vChain nHeight
        else getAncestor m pindex nHeight
      locatorLoop vChain turns vHave (if 10 < vHave.length then nStep * 2 else nStep) next

/-- Without a block to start from, the locator is that of the tip. -/
def getLocator (vChain : List (Option Uint256)) (pindex : Option Uint256) : Option (List Uint256) :=
  let pindex := pindex.or (chainTip vChain)
  locatorLoop m vChain (pindex.elim 0 (heightOf m · + 1)) [] 1 pindex

/-- The first block of a locator that is on the chain, else the genesis block. -/
def findForkInGlobalIndex (vChain : List (Option Uint256)) (vHave : List Uint256) :
    Option Uint256 :=
  match vHave.find? fun hash => (m.find hash).isSome && contains m vChain hash with
  | some pindex => some pindex
  | none => atHeight vChain 0

/-- From a block up to the first one on the chain. -/
def firstContained (vChain : List (Option Uint256)) :
    ℕ → Option Uint256 → Option (Option Uint256)
  | _, none => some none
  | 0, some _ => none
  | turns + 1, some pindex =>
    if contains m vChain pindex then some (some pindex)
    else firstContained vChain turns (parent m pindex)

def findFork (vChain : List (Option Uint256)) (pindex : Uint256) : Option (Option Uint256) :=
  firstContained m vChain (heightOf m pindex + 1)
    (if chainHeight vChain < heightOf m pindex then getAncestor m pindex (chainHeight vChain)
      else some pindex)

end Definitions

/-! The array. -/

section Array

variable {m : BlockMap} {a b t x : Uint256} {ea et ex : Entry} {k n : ℕ}
  {vChain : List (Option Uint256)}

/-- At each height the ancestor of the tip. -/
def pathTo (m : BlockMap) (tip : Option Uint256) : List (Option Uint256) :=
  tip.elim [] fun t =>
    (List.range (heightOf m t + 1)).map fun i => Pointers.follow (parent m) (heightOf m t - i) t

theorem length_pathTo (m : BlockMap) (t : Uint256) :
    (pathTo m (some t)).length = heightOf m t + 1 := by
  simp [pathTo]

theorem getElem?_pathTo (m : BlockMap) (t : Uint256) {i : ℕ} (hi : i ≤ heightOf m t) :
    (pathTo m (some t))[i]? = some (Pointers.follow (parent m) (heightOf m t - i) t) := by
  have hlt : i < (List.range (heightOf m t + 1)).length := by
    rw [List.length_range]
    omega
  rw [pathTo, Option.elim_some, List.getElem?_map, List.getElem?_eq_getElem hlt,
    List.getElem_range, Option.map_some]

/-- Below a place that holds a block, as far as some height, stand the ancestors of the block. -/
def Settled (m : BlockMap) (n : ℕ) (vChain : List (Option Uint256)) : Prop :=
  ∀ i a, i ≤ n → vChain[i]? = some (some a) → ∀ j ≤ i,
    vChain[j]? = some (Pointers.follow (parent m) (i - j) a)

theorem settled_resize_pathTo (m : BlockMap) (tip : Option Uint256) (n : ℕ) :
    Settled m n (resize (pathTo m tip) (n + 1)) := by
  cases tip with
  | none =>
    intro i a _ hi
    rw [resize, pathTo, Option.elim_none, List.take_nil, List.nil_append,
      List.getElem?_replicate] at hi
    split at hi
    · cases hi
    · cases hi
  | some t =>
    intro i a hin hi j hj
    have hpath : ∀ k ≤ n, k ≤ heightOf m t → (resize (pathTo m (some t)) (n + 1))[k]? =
        some (Pointers.follow (parent m) (heightOf m t - k) t) := by
      intro k hkn hk
      have hlen := length_pathTo m t
      rw [resize, List.getElem?_append_left (by rw [List.length_take]; omega),
        List.getElem?_take_of_lt (by omega), getElem?_pathTo m t hk]
    by_cases hheight : i ≤ heightOf m t
    · rw [hpath i hin hheight] at hi
      rw [hpath j (by omega) (by omega)]
      have hsplit : heightOf m t - j = (heightOf m t - i) + (i - j) := by omega
      rw [hsplit, Pointers.follow_add, Option.some.inj hi, Option.bind_some]
    · have hlen := length_pathTo m t
      rw [resize, List.getElem?_append_right (by rw [List.length_take]; omega),
        List.getElem?_replicate] at hi
      split at hi
      · cases hi
      · cases hi

theorem Settled.set (h : Settled m n vChain) (hk : n < k) (v : Option Uint256) :
    Settled m n (vChain.set k v) := by
  intro i a hin hi j hj
  rw [List.getElem?_set_ne (by omega)] at hi ⊢
  exact h i a hin hi j hj

theorem eq_pathTo (hlen : vChain.length = heightOf m t + 1) (hall : ∀ j ≤ heightOf m t,
    vChain[j]? = some (Pointers.follow (parent m) (heightOf m t - j) t)) :
    vChain = pathTo m (some t) := by
  refine List.ext_getElem? fun j => ?_
  by_cases hj : j ≤ heightOf m t
  · rw [hall j hj, getElem?_pathTo m t hj]
  · rw [List.getElem?_eq_none (by omega), List.getElem?_eq_none]
    rw [length_pathTo]
    omega

theorem setTipLoop_eq (h : Forest m) (ht : m.find t = some et) {turns : ℕ}
    (hk : k ≤ heightOf m t) (hturns : k < turns)
    (hx : Pointers.follow (parent m) (heightOf m t - k) t = some x)
    (hlen : vChain.length = heightOf m t + 1) (hsettled : Settled m k vChain)
    (habove : ∀ j, k < j → j ≤ heightOf m t →
      vChain[j]? = some (Pointers.follow (parent m) (heightOf m t - j) t)) :
    setTipLoop m turns vChain (some x) = some (pathTo m (some t)) := by
  induction turns generalizing k x vChain with
  | zero => exact absurd hturns (Nat.not_lt_zero k)
  | succ turns ih =>
    have htop := heightOf_of_find ht
    obtain ⟨ex, hex, hheight⟩ := h.find_follow ht hx
    have hxk : heightOf m x = k := by
      rw [heightOf_of_find hex]
      omega
    have hplace : vChain[k]? = some vChain[k] := List.getElem?_eq_getElem (by omega)
    rw [setTipLoop, hxk, hplace]
    dsimp only
    split_ifs with hheld
    · refine congrArg some (eq_pathTo hlen fun j hj => ?_)
      rcases Nat.lt_or_ge k j with hkj | hjk
      · exact habove j hkj hj
      · rw [hsettled k x le_rfl (hplace.trans (congrArg some hheld)) j hjk]
        have hsplit : heightOf m t - j = (heightOf m t - k) + (k - j) := by omega
        rw [hsplit, Pointers.follow_add, hx, Option.bind_some]
    · have hset : ∀ j, k ≤ j → j ≤ heightOf m t → (vChain.set k (some x))[j]? =
          some (Pointers.follow (parent m) (heightOf m t - j) t) := by
        intro j hkj hj
        rcases Nat.eq_or_lt_of_le hkj with rfl | hlt
        · rw [List.getElem?_set_self (by omega), hx]
        · rw [List.getElem?_set_ne (by omega)]
          exact habove j hlt hj
      have hlen' : (vChain.set k (some x)).length = heightOf m t + 1 := by
        rw [List.length_set, hlen]
      cases k with
      | zero =>
        have hroot : parent m x = none := by
          rcases h.rooted x ex hex with ⟨hnone, -⟩ | ⟨p, ep, -, -, hnext⟩
          · rw [parent_of_find hex, hnone]
          · omega
        rw [hroot]
        have hdone := congrArg some (eq_pathTo hlen' fun j hj => hset j (Nat.zero_le j) hj)
        cases turns with
        | zero => exact hdone
        | succ turns => exact hdone
      | succ k =>
        have hstep : heightOf m t - k = (heightOf m t - (k + 1)) + 1 := by omega
        have hnext := @Pointers.follow_add _ (parent m) (heightOf m t - (k + 1)) 1 t
        rw [← hstep, hx, Option.bind_some, Pointers.follow_succ] at hnext
        obtain ⟨y, hy⟩ := (h.depth ht).follow_isSome (show heightOf m t - k ≤ et.nHeight by omega)
        have hparent : parent m x = some y := by
          rw [hy] at hnext
          cases hp : parent m x with
          | none =>
            rw [hp] at hnext
            cases hnext
          | some p =>
            rw [hp] at hnext
            exact hnext.symm
        rw [hparent]
        refine ih (by omega) (by omega) hy hlen' (Settled.set ?_ (Nat.lt_succ_self k) _)
          fun j hj => hset j hj
        exact fun i a hin => hsettled i a (by omega)

/-- Whatever the chain was before, it then holds the ancestors of the new tip. -/
theorem setTip_pathTo (h : Forest m) (old tip : Option Uint256)
    (htip : ∀ t, tip = some t → (m.find t).isSome) :
    setTip m (pathTo m old) tip = some (pathTo m tip) := by
  cases tip with
  | none => rfl
  | some t =>
    obtain ⟨et, ht⟩ := Option.isSome_iff_exists.1 (htip t rfl)
    refine setTipLoop_eq h ht le_rfl (Nat.lt_succ_self _) ?_ ?_ (settled_resize_pathTo m old _)
      fun j hj hle => absurd hj (by omega)
    · rw [Nat.sub_self, Pointers.follow_zero]
    · rw [resize, List.length_append, List.length_take, List.length_replicate]
      omega

theorem setTips_eq (h : Forest m) (tips : List (Option (Pointer m))) :
    setTips m tips = some (pathTo m (tips.getLast?.join.map (·.1))) := by
  have hrun : ∀ (tips : List (Option (Pointer m))) (old : Option Uint256),
      tips.foldlM (fun vChain tip => setTip m vChain (tip.map (·.1))) (pathTo m old) =
        some (pathTo m (tips.getLast?.elim old fun tip => tip.map (·.1))) := by
    intro tips
    induction tips with
    | nil => exact fun old => rfl
    | cons tip tips ih =>
      intro old
      have hone : setTip m (pathTo m old) (tip.map (·.1)) = some (pathTo m (tip.map (·.1))) := by
        refine setTip_pathTo h old _ fun t ht => ?_
        obtain ⟨p, -, rfl⟩ := Option.map_eq_some_iff.1 ht
        exact p.2
      rw [List.foldlM_cons, hone, Option.bind_eq_bind, Option.bind_some, ih]
      cases tips with
      | nil => rfl
      | cons next rest => rw [List.getLast?_cons_cons, List.getLast?_cons, Option.elim_some,
          Option.elim_some]
  refine (hrun tips none).trans ?_
  cases tips.getLast? with
  | none => rfl
  | some tip => rfl

end Array

/-! Reading the chain. -/

section Reading

variable {m : BlockMap} {a b t x : Uint256} {ea et ex : Entry} {k n : ℕ} {tip : Option Uint256}

theorem atHeight_pathTo (m : BlockMap) (t : Uint256) {i : ℕ} (hi : i ≤ heightOf m t) :
    atHeight (pathTo m (some t)) i = Pointers.follow (parent m) (heightOf m t - i) t := by
  rw [atHeight, if_neg (by omega), Int.toNat_natCast, getElem?_pathTo m t hi]
  rfl

theorem atHeight_of_lt {vChain : List (Option Uint256)} {i : ℕ} (hi : vChain.length ≤ i) :
    atHeight vChain i = none := by
  rw [atHeight, if_neg (by omega), Int.toNat_natCast, List.getElem?_eq_none hi]
  rfl

theorem contains_pathTo (h : Forest m) (ht : m.find t = some et) (hx : m.find x = some ex) :
    contains m (pathTo m (some t)) x = true ↔ Ancestor m t x := by
  have htop := heightOf_of_find ht
  rw [contains, beq_iff_eq, heightOf_of_find hx, h.ancestor_iff ht]
  by_cases hle : ex.nHeight ≤ et.nHeight
  · rw [atHeight_pathTo m t (by omega), htop]
    constructor
    · exact fun hfollow => ⟨ex, hx, hle, hfollow⟩
    · rintro ⟨ex', hx', -, hfollow⟩
      rwa [Option.some.inj (hx.symm.trans hx')]
  · have hout : (pathTo m (some t)).length ≤ ex.nHeight := by
      rw [length_pathTo, htop]
      omega
    rw [atHeight_of_lt hout]
    refine iff_of_false nofun ?_
    rintro ⟨ex', hx', hle', -⟩
    rw [Option.some.inj (hx.symm.trans hx')] at hle
    exact hle hle'

theorem contains_empty (m : BlockMap) (x : Uint256) : contains m (pathTo m none) x = false := by
  rw [contains, atHeight_of_lt (Nat.zero_le _)]
  rfl

/-- The ancestor so many generations up. -/
def up (m : BlockMap) (a : Uint256) (k : ℕ) : Uint256 := (Pointers.follow (parent m) k a).getD a

theorem follow_eq_up (h : Forest m) (ha : m.find a = some ea) (hk : k ≤ ea.nHeight) :
    Pointers.follow (parent m) k a = some (up m a k) := by
  obtain ⟨x, hx⟩ := (h.depth ha).follow_isSome hk
  rw [up, hx, Option.getD_some]

theorem find_up (h : Forest m) (ha : m.find a = some ea) (hk : k ≤ ea.nHeight) :
    ∃ e, m.find (up m a k) = some e ∧ e.nHeight = ea.nHeight - k := by
  obtain ⟨e, he, hheight⟩ := h.find_follow ha (follow_eq_up h ha hk)
  exact ⟨e, he, by omega⟩

theorem heightOf_up (h : Forest m) (ha : m.find a = some ea) (hk : k ≤ ea.nHeight) :
    heightOf m (up m a k) = ea.nHeight - k := by
  obtain ⟨e, he, hheight⟩ := find_up h ha hk
  rw [heightOf_of_find he, hheight]

theorem follow_up (h : Forest m) (ha : m.find a = some ea) {j : ℕ} (hk : j + k ≤ ea.nHeight) :
    Pointers.follow (parent m) k (up m a j) = some (up m a (j + k)) := by
  have hboth := @Pointers.follow_add _ (parent m) j k a
  rw [follow_eq_up h ha (by omega), follow_eq_up h ha (by omega), Option.bind_some] at hboth
  exact hboth.symm

/-- The chain and the skip pointers lead to the same ancestor. -/
theorem next_eq (h : Forest m) (htip : ∀ t, tip = some t → (m.find t).isSome)
    (hx : m.find x = some ex) (hn : n ≤ ex.nHeight) :
    (if contains m (pathTo m tip) x then atHeight (pathTo m tip) n else getAncestor m x n) =
      Pointers.follow (parent m) (ex.nHeight - n) x := by
  split_ifs with hin
  · cases tip with
    | none => exact absurd (hin.symm.trans (contains_empty m x)) (by decide)
    | some t =>
      obtain ⟨et, ht⟩ := Option.isSome_iff_exists.1 (htip t rfl)
      obtain ⟨ex', hx', hle, hfollow⟩ := (h.ancestor_iff ht).1 ((contains_pathTo h ht hx).1 hin)
      obtain rfl := Option.some.inj (hx.symm.trans hx')
      have htop := heightOf_of_find ht
      have hsplit : et.nHeight - n = (et.nHeight - ex.nHeight) + (ex.nHeight - n) := by omega
      rw [atHeight_pathTo m t (by omega), htop, hsplit, Pointers.follow_add, hfollow,
        Option.bind_some]
  · exact h.getAncestor_eq hx hn

end Reading

/-! How far a locator goes back. -/

section Depths

/-- The depths of a locator below a block of height `h`, from the depth `d` on. -/
def depthsFrom (h : ℕ) : ℕ → ℕ → ℕ → ℕ → List ℕ
  | 0, _, _, _ => []
  | turns + 1, size, nStep, d =>
    d :: if d = h then []
      else depthsFrom h turns (size + 1) (if 10 < size + 1 then nStep * 2 else nStep)
        (min (d + nStep) h)

/-- The first eleven steps are of length one, then the length doubles; genesis is not passed. -/
structure Stepping (h size nStep d : ℕ) : Prop where
  le : d ≤ h
  one : size ≤ 10 → d = size ∧ nStep = 1
  double : 10 < size → 2 ≤ nStep ∧ d = min (9 + nStep) h

variable {h turns size nStep d k : ℕ}

theorem Stepping.pos (hs : Stepping h size nStep d) : 0 < nStep := by
  rcases Nat.lt_or_ge 10 size with hlt | hle
  · have hd := hs.double hlt
    omega
  · have hd := hs.one hle
    omega

theorem Stepping.next (hs : Stepping h size nStep d) (hd : d ≠ h) :
    Stepping h (size + 1) (if 10 < size + 1 then nStep * 2 else nStep) (min (d + nStep) h) := by
  have hle := hs.le
  refine ⟨by omega, fun hsize => ?_, fun hsize => ?_⟩
  · obtain ⟨hdepth, hone⟩ := hs.one (by omega)
    rw [if_neg (by omega)]
    omega
  · rw [if_pos hsize]
    rcases Nat.lt_or_ge 10 size with hlt | hsmall
    · have hdouble := hs.double hlt
      omega
    · have hone := hs.one hsmall
      omega

theorem depthsFrom_spec (hs : Stepping h size nStep d) (hturns : h - d < turns) :
    (∃ rest, depthsFrom h turns size nStep d = d :: rest) ∧
      (∀ e ∈ depthsFrom h turns size nStep d, d ≤ e ∧ e ≤ h) ∧
      (depthsFrom h turns size nStep d).Pairwise (· < ·) ∧
      (depthsFrom h turns size nStep d).getLast? = some h := by
  induction turns generalizing size nStep d with
  | zero => exact absurd hturns (Nat.not_lt_zero _)
  | succ turns ih =>
    have hle := hs.le
    have hpos := hs.pos
    rw [depthsFrom]
    by_cases hd : d = h
    · rw [if_pos hd]
      refine ⟨⟨[], rfl⟩, fun e he => ?_, List.pairwise_singleton _ _, congrArg some hd⟩
      rw [List.mem_singleton.1 he]
      omega
    · rw [if_neg hd]
      obtain ⟨⟨rest, hrest⟩, hbounds, hsorted, hlast⟩ := ih (hs.next hd) (by omega)
      refine ⟨⟨_, rfl⟩, fun e he => ?_, List.pairwise_cons.2 ⟨fun e he => ?_, hsorted⟩, ?_⟩
      · rcases List.mem_cons.1 he with rfl | he
        · omega
        · have hbound := hbounds e he
          omega
      · have hbound := hbounds e he
        omega
      · rw [hrest] at hlast ⊢
        rw [List.getLast?_cons_cons, hlast]

/-- The first depth of a locator at or below a depth `k`, which the depths before have not
reached. -/
theorem find?_depthsFrom (hs : Stepping h size nStep d) (hturns : h - d < turns) (hk : k ≤ h)
    (hsmall : size ≤ 10 → d ≤ k) (hlarge : 10 < size → nStep + 20 ≤ 2 * k) :
    ∃ e, (depthsFrom h turns size nStep d).find? (fun e => decide (k ≤ e)) = some e ∧
      k ≤ e ∧ e ≤ h ∧ (k ≤ 11 → e = k) ∧ (11 < k → e < 2 * k ∨ e = h) := by
  induction turns generalizing size nStep d with
  | zero => exact absurd hturns (Nat.not_lt_zero _)
  | succ turns ih =>
    have hle := hs.le
    have hpos := hs.pos
    rw [depthsFrom]
    by_cases hkd : k ≤ d
    · refine ⟨d, List.find?_cons_of_pos (decide_eq_true hkd), hkd, hle, ?_⟩
      rcases Nat.lt_or_ge 10 size with hlt | hge
      · have hdouble := hs.double hlt
        have hprev := hlarge hlt
        omega
      · have hprev := hsmall hge
        omega
    · have hd : d ≠ h := by omega
      rw [List.find?_cons_of_neg (by rwa [decide_eq_true_iff]), if_neg hd]
      refine ih (hs.next hd) (by omega) (fun hsize => ?_) fun hsize => ?_
      · have hone := hs.one (by omega)
        omega
      · rw [if_pos hsize]
        rcases Nat.lt_or_ge 10 size with hlt | hge
        · have hdouble := hs.double hlt
          omega
        · have hone := hs.one hge
          omega

end Depths

/-! Locators. -/

section Locator

variable {m : BlockMap} {p t x : Uint256} {ep et : Entry} {k : ℕ} {tip : Option Uint256}

theorem locatorLoop_eq (h : Forest m) (htip : ∀ t, tip = some t → (m.find t).isSome)
    (hp : m.find p = some ep) {turns nStep d : ℕ} (vHave : List Uint256) (hd : d ≤ ep.nHeight)
    (hturns : ep.nHeight - d < turns) (hpos : 0 < nStep) :
    locatorLoop m (pathTo m tip) turns vHave nStep (some (up m p d)) =
      some (vHave ++ (depthsFrom ep.nHeight turns vHave.length nStep d).map (up m p)) := by
  induction turns generalizing vHave nStep d with
  | zero => exact absurd hturns (Nat.not_lt_zero _)
  | succ turns ih =>
    obtain ⟨e, he, hheight⟩ := find_up h hp hd
    have hup := heightOf_of_find he
    rw [locatorLoop, depthsFrom]
    dsimp only
    by_cases hgenesis : d = ep.nHeight
    · rw [if_pos (by omega), if_pos hgenesis]
      rfl
    · rw [if_neg (by omega), if_neg hgenesis]
      have hback : max ((heightOf m (up m p d) : ℤ) - nStep) 0 =
          ((ep.nHeight - min (d + nStep) ep.nHeight : ℕ) : ℤ) := by omega
      have hnext : e.nHeight - (ep.nHeight - min (d + nStep) ep.nHeight) =
          min (d + nStep) ep.nHeight - d := by omega
      have hsum : d + (min (d + nStep) ep.nHeight - d) = min (d + nStep) ep.nHeight := by omega
      have hfollow := follow_up h hp
        (show d + (min (d + nStep) ep.nHeight - d) ≤ ep.nHeight by omega)
      rw [hsum] at hfollow
      rw [hback, next_eq h htip he (by omega), hnext, hfollow]
      have hdouble : 0 < if 10 < (vHave ++ [up m p d]).length then nStep * 2 else nStep := by
        split
        · omega
        · exact hpos
      rw [ih (vHave ++ [up m p d]) (by omega) (by omega) hdouble, List.length_append,
        List.length_singleton, List.append_assoc]
      rfl

theorem stepping_start (h : ℕ) : Stepping h 0 1 0 :=
  ⟨Nat.zero_le h, fun _ => ⟨rfl, rfl⟩, fun hlt => absurd hlt (by decide)⟩

theorem getLocator_eq (h : Forest m) (htip : ∀ t, tip = some t → (m.find t).isSome)
    (hp : m.find p = some ep) : getLocator m (pathTo m tip) (some p) =
      some ((depthsFrom ep.nHeight (ep.nHeight + 1) 0 1 0).map (up m p)) := by
  have hzero : up m p 0 = p := rfl
  have hloop := locatorLoop_eq h htip hp [] (Nat.zero_le _)
    (show ep.nHeight - 0 < ep.nHeight + 1 by omega) (by decide : 0 < 1)
  rw [hzero] at hloop
  rw [getLocator, Option.some_or, Option.elim_some, heightOf_of_find hp, hloop]
  rfl

/-- Of the ancestors of a block, those from the fork on are on the chain. -/
theorem contains_up (h : Forest m) (hp : m.find p = some ep) (ht : m.find t = some et)
    (hx : HighestCommon m p t x) (hk : k ≤ ep.nHeight) :
    contains m (pathTo m (some t)) (up m p k) = true ↔ ep.nHeight - heightOf m x ≤ k := by
  obtain ⟨e, he, hheight⟩ := find_up h hp hk
  have hanc : Ancestor m p (up m p k) := ⟨k, follow_eq_up h hp hk⟩
  obtain ⟨ex, hfx, hle, hfollow⟩ := (h.ancestor_iff hp).1 hx.left
  have hheightx := heightOf_of_find hfx
  have hheighte := heightOf_of_find he
  rw [contains_pathTo h ht he]
  constructor
  · intro hon
    have hhigh := hx.highest _ hanc hon
    omega
  · intro hdeep
    obtain ⟨i, hi⟩ := hx.right
    obtain ⟨j, hj⟩ := (h.ancestor_of_le hp hfollow hfx he (by omega)).2 hanc
    exact ⟨i + j, by rw [Pointers.follow_add, hi, Option.bind_some, hj]⟩

theorem firstContained_eq (h : Forest m) (hp : m.find p = some ep) (ht : m.find t = some et)
    (hx : HighestCommon m p t x) {turns d : ℕ} (hd : d ≤ ep.nHeight - heightOf m x)
    (hturns : ep.nHeight - d < turns) :
    firstContained m (pathTo m (some t)) turns (some (up m p d)) = some (some x) := by
  obtain ⟨ex, hfx, hle, hfollow⟩ := (h.ancestor_iff hp).1 hx.left
  have hheightx := heightOf_of_find hfx
  induction turns generalizing d with
  | zero => exact absurd hturns (Nat.not_lt_zero _)
  | succ turns ih =>
    have hon := contains_up h hp ht hx (show d ≤ ep.nHeight by omega)
    rw [firstContained]
    by_cases hdeep : ep.nHeight - heightOf m x ≤ d
    · rw [if_pos (hon.2 hdeep)]
      have hdepth : d = ep.nHeight - ex.nHeight := by omega
      rw [up, hdepth, hfollow, Option.getD_some]
    · rw [if_neg (mt hon.1 hdeep)]
      have hnext := follow_up h hp (show d + 1 ≤ ep.nHeight by omega)
      rw [Pointers.follow_succ] at hnext
      have hparent : parent m (up m p d) = some (up m p (d + 1)) := by
        obtain ⟨y, hy, hone⟩ := Option.bind_eq_some_iff.1 hnext
        rw [hy, ← hone, Pointers.follow_zero]
      rw [hparent]
      exact ih (by omega) (by omega)

theorem findFork_eq (h : Forest m) (hp : m.find p = some ep) (ht : m.find t = some et)
    (hx : HighestCommon m p t x) : findFork m (pathTo m (some t)) p = some (some x) := by
  obtain ⟨ex, hfx, hle, -⟩ := (h.ancestor_iff hp).1 hx.left
  obtain ⟨ex', hfx', hle', -⟩ := (h.ancestor_iff ht).1 hx.right
  obtain rfl := Option.some.inj (hfx.symm.trans hfx')
  have hheightx := heightOf_of_find hfx
  have hheightp := heightOf_of_find hp
  have hheight : chainHeight (pathTo m (some t)) = et.nHeight := by
    rw [chainHeight, length_pathTo, heightOf_of_find ht]
    omega
  rw [findFork, hheight, hheightp]
  split_ifs with htall
  · rw [h.getAncestor_eq hp (by omega), follow_eq_up h hp (by omega)]
    exact firstContained_eq h hp ht hx (by omega) (by omega)
  · exact firstContained_eq h hp ht hx (d := 0) (by omega) (by omega)

theorem findForkInGlobalIndex_eq (h : Forest m) (hp : m.find p = some ep) (ht : m.find t = some et)
    (hx : HighestCommon m p t x) {depths : List ℕ} (hle : ∀ e ∈ depths, e ≤ ep.nHeight) {e : ℕ}
    (he : depths.find? (fun e => decide (ep.nHeight - heightOf m x ≤ e)) = some e) :
    findForkInGlobalIndex m (pathTo m (some t)) (depths.map (up m p)) = some (up m p e) := by
  have hsame : depths.find? ((fun hash => (m.find hash).isSome &&
      contains m (pathTo m (some t)) hash) ∘ up m p) = some e := by
    refine Eq.trans (List.find?_congr fun k hk => ?_) he
    obtain ⟨ek, hek, -⟩ := find_up h hp (hle k hk)
    rw [Function.comp_apply, hek, Option.isSome_some, Bool.true_and, Bool.eq_iff_iff,
      decide_eq_true_iff]
    exact contains_up h hp ht hx (hle k hk)
  rw [findForkInGlobalIndex, List.find?_map, hsame]
  rfl

/-- After any calls of `SetTip` the chain holds the ancestors of its tip. The locator of a block
goes back from the block to genesis, and what another chain over the same index finds with it is
an ancestor of the fork, or the fork itself, less than twice as deep; the fork is exact where it
is no deeper than eleven blocks, and `FindFork` finds it always. -/
theorem locators_find_fork (par : Params) (proc : Process) (blocks : List (CBlock × Uint256))
    (tips tips' : List (Option (Pointer (built par proc blocks).mapBlockIndex))) :
    let m := (built par proc blocks).mapBlockIndex
    ∃ chain chain', setTips m tips = some chain ∧ setTips m tips' = some chain' ∧
      chain = pathTo m (tips.getLast?.join.map (·.1)) ∧
      chain' = pathTo m (tips'.getLast?.join.map (·.1)) ∧
      ∀ p, (m.find p).isSome → ∃ vHave, getLocator m chain (some p) = some vHave ∧
        vHave.head? = some p ∧ (∀ x ∈ vHave, Ancestor m p x) ∧
        vHave.Pairwise (fun x y => heightOf m y < heightOf m x) ∧
        (∃ g, vHave.getLast? = some g ∧ heightOf m g = 0) ∧
        ∀ t F, tips'.getLast?.join.map (·.1) = some t → HighestCommon m p t F →
          findFork m chain' p = some (some F) ∧
          ∃ r, findForkInGlobalIndex m chain' vHave = some r ∧ Ancestor m F r ∧
            let d := heightOf m p - heightOf m F
            let depth := heightOf m p - heightOf m r
            (d ≤ 11 → depth = d) ∧ (11 < d → depth < 2 * d ∨ heightOf m r = 0) := by
  intro m
  have h : Forest m := forest_built par proc blocks
  have hknown : ∀ (tips : List (Option (Pointer m))) (t : Uint256),
      tips.getLast?.join.map (·.1) = some t → (m.find t).isSome := by
    intro tips t ht
    obtain ⟨q, -, rfl⟩ := Option.map_eq_some_iff.1 ht
    exact q.2
  refine ⟨_, _, setTips_eq h tips, setTips_eq h tips', rfl, rfl, fun p hp => ?_⟩
  obtain ⟨ep, hep⟩ := Option.isSome_iff_exists.1 hp
  have hstart := stepping_start ep.nHeight
  obtain ⟨⟨rest, hrest⟩, hbounds, hsorted, hlast⟩ :=
    depthsFrom_spec hstart (show ep.nHeight - 0 < ep.nHeight + 1 by omega)
  refine ⟨_, getLocator_eq h (hknown tips) hep, ?_, fun x hx => ?_, ?_, ?_, fun t F ht hF => ?_⟩
  · rw [hrest]
    rfl
  · obtain ⟨k, hk, rfl⟩ := List.mem_map.1 hx
    exact ⟨k, follow_eq_up h hep (hbounds k hk).2⟩
  · refine List.pairwise_map.2 (hsorted.imp_of_mem fun {a b} ha hb hlt => ?_)
    have hla := (hbounds a ha).2
    have hlb := (hbounds b hb).2
    rw [heightOf_up h hep hla, heightOf_up h hep hlb]
    omega
  · refine ⟨up m p ep.nHeight, ?_, ?_⟩
    · rw [List.getLast?_map, hlast, Option.map_some]
    · rw [heightOf_up h hep le_rfl, Nat.sub_self]
  · obtain ⟨et, het⟩ := Option.isSome_iff_exists.1 (hknown tips' t ht)
    obtain ⟨eF, hfF, hleF, hfollow⟩ := (h.ancestor_iff hep).1 hF.left
    have hheightF := heightOf_of_find hfF
    have hheightp := heightOf_of_find hep
    obtain ⟨e, hfind, hke, heh, hexact, hdouble⟩ :=
      find?_depthsFrom hstart (show ep.nHeight - 0 < ep.nHeight + 1 by omega)
        (show ep.nHeight - heightOf m F ≤ ep.nHeight by omega) (fun _ => Nat.zero_le _)
        (fun hlt => absurd hlt (by decide))
    rw [ht]
    refine ⟨findFork_eq h hep het hF, up m p e,
      findForkInGlobalIndex_eq h hep het hF (fun k hk => (hbounds k hk).2) hfind, ?_, ?_⟩
    · obtain ⟨ee, hee, hheighte⟩ := find_up h hep heh
      exact (h.ancestor_of_le hep hfollow hfF hee (by omega)).2 ⟨e, follow_eq_up h hep heh⟩
    · have hheighte := heightOf_up h hep heh
      dsimp only
      rw [hheightp, hheighte]
      omega

end Locator

end Scrypta.Locators
