import Scrypta.Primitives
import Scrypta.Toolkit.Lineage

/-! The block index and the active chain. An index entry is the lineage of its block: the
data that is fixed when the block enters the index, over the entry of the previous block. -/

namespace Scrypta

structure CBlock where
  hash : Uint256
  hashPrevBlock : Uint256
  nTime : BitVec 32
  nBits : BitVec 32
  vtx : List CTransaction
  nVersion : ℤ := 4
  hashMerkleRoot : Uint256 := 0
  nNonce : BitVec 32 := 0
  vchBlockSig : Bytes := []
  deriving DecidableEq, Repr

namespace CBlock

def getHash (b : CBlock) : Uint256 := b.hash

def getBlockTime (b : CBlock) : ℤ := b.nTime.toNat

def isProofOfStake (b : CBlock) : Bool :=
  match b.vtx with
  | _ :: tx :: _ => tx.isCoinStake
  | _ => false

def isProofOfWork (b : CBlock) : Bool := !b.isProofOfStake

end CBlock

/-! Difficulty in its compact form. -/

def compactWord (nCompact : BitVec 32) : BitVec 32 :=
  let nSize := (nCompact >>> 24).toNat
  let nWord := nCompact &&& 0x007fffff
  if nSize ≤ 3 then nWord >>> (8 * (3 - nSize)) else nWord

def setCompact (nCompact : BitVec 32) : Uint256 :=
  let nSize := (nCompact >>> 24).toNat
  let nWord := (compactWord nCompact).setWidth 256
  if nSize ≤ 3 then nWord else nWord <<< (8 * (nSize - 3))

def compactNegative (nCompact : BitVec 32) : Bool :=
  compactWord nCompact != 0 && nCompact &&& 0x00800000 != 0

def compactOverflow (nCompact : BitVec 32) : Bool :=
  let nSize := (nCompact >>> 24).toNat
  let nWord := compactWord nCompact
  nWord != 0 && (34 < nSize || (0xff < nWord && 33 < nSize) || (0xffff < nWord && 32 < nSize))

def getBlockProof (nBits : BitVec 32) : Uint256 :=
  let bnTarget := setCompact nBits
  if compactNegative nBits || compactOverflow nBits || bnTarget == 0 then 0
  else ~~~bnTarget / (bnTarget + 1) + 1

structure BlockInfo where
  hash : Uint256
  nTime : BitVec 32
  nBits : BitVec 32
  fProofOfStake : Bool
  fGeneratedStakeModifier : Bool
  nStakeModifier : BitVec 64
  deriving DecidableEq, Repr

abbrev CBlockIndex := Lineage BlockInfo

instance : LawfulBEq CBlockIndex := instLawfulBEq

namespace CBlockIndex

def getBlockHash (b : CBlockIndex) : Uint256 := b.label.hash

def getBlockTime (b : CBlockIndex) : ℤ := b.label.nTime.toNat

def isProofOfStake (b : CBlockIndex) : Bool := b.label.fProofOfStake

def generatedStakeModifier (b : CBlockIndex) : Bool := b.label.fGeneratedStakeModifier

def nStakeModifier (b : CBlockIndex) : BitVec 64 := b.label.nStakeModifier

def getStakeEntropyBit (b : CBlockIndex) : Bool := b.getBlockHash.getLsbD 0

end CBlockIndex

/-- The chain of blocks under one tip, by height; empty before there is a tip. -/
structure CChain where
  vChain : List CBlockIndex
  isBranch : ∀ b, vChain.getLast? = some b → vChain = b.branch

namespace CChain

def empty : CChain := ⟨[], by simp⟩

def ofTip (b : CBlockIndex) : CChain :=
  ⟨b.branch, fun c hc => by
    rw [Lineage.getLast?_branch] at hc
    rw [Option.some.inj hc]⟩

def setTip : Option CBlockIndex → CChain
  | none => empty
  | some b => ofTip b

def tip (c : CChain) : Option CBlockIndex := c.vChain.getLast?

def height (c : CChain) : ℤ := c.vChain.length - 1

def contains (c : CChain) (b : CBlockIndex) : Bool := c.vChain[b.height]? == some b

/-- The ancestor of `b` at a height, or nothing when there is none. -/
def getAncestor (b : CBlockIndex) (height : ℤ) : Option CBlockIndex :=
  if height < 0 then none else b.branch[height.toNat]?

def firstContained (c : CChain) : CBlockIndex → Option CBlockIndex
  | .root a => if c.contains (.root a) then some (.root a) else none
  | .child p a => if c.contains (.child p a) then some (.child p a) else c.firstContained p

def findFork (c : CChain) (b : CBlockIndex) : Option CBlockIndex :=
  if c.height < b.height then (getAncestor b c.height).bind c.firstContained
  else c.firstContained b

@[simp] theorem vChain_ofTip (b : CBlockIndex) : (ofTip b).vChain = b.branch := rfl

@[simp] theorem tip_ofTip (b : CBlockIndex) : (ofTip b).tip = some b :=
  Lineage.getLast?_branch b

/-- Every chain is empty or the chain of its tip. -/
theorem eq_setTip (c : CChain) : c = setTip c.tip := by
  obtain ⟨v, hv⟩ := c
  cases h : v.getLast? with
  | none =>
    obtain rfl : v = [] := List.getLast?_eq_none_iff.mp h
    rfl
  | some b =>
    obtain rfl := hv b h
    simp only [tip, h, setTip, ofTip]

/-- At each height the chain holds the ancestor of its tip. -/
theorem getElem?_vChain {c : CChain} {a : CBlockIndex} {h : ℕ} :
    c.vChain[h]? = some a ↔ ∃ b, c.tip = some b ∧ a ≤ b ∧ a.height = h := by
  rw [eq_setTip c]
  cases c.tip with
  | none => simp [setTip, empty, tip]
  | some b => simp [setTip, Lineage.getElem?_branch]

theorem contains_iff {c : CChain} {a : CBlockIndex} :
    c.contains a = true ↔ ∃ b, c.tip = some b ∧ a ≤ b := by
  simp [contains, getElem?_vChain]

theorem contains_ofTip {a b : CBlockIndex} : (ofTip b).contains a = true ↔ a ≤ b := by
  simp [contains_iff]

theorem height_le_of_contains {c : CChain} {a : CBlockIndex} (h : c.contains a = true) :
    (a.height : ℤ) ≤ c.height := by
  obtain ⟨b, hb, hab⟩ := contains_iff.mp h
  have hlen : c.vChain.length = b.height + 1 := by
    rw [eq_setTip c, hb, setTip, vChain_ofTip, Lineage.length_branch]
  have := Lineage.height_mono hab
  simp only [height, hlen]
  omega

theorem firstContained_some {c : CChain} {b f : CBlockIndex} (h : c.firstContained b = some f) :
    c.contains f = true ∧ f ≤ b ∧ ∀ x ≤ b, c.contains x = true → x ≤ f := by
  induction b with
  | root a =>
    simp only [firstContained] at h
    split at h
    · next hc =>
      cases h
      exact ⟨hc, le_rfl, fun x hx _ => hx⟩
    · cases h
  | child p a ih =>
    simp only [firstContained] at h
    split at h
    · next hc =>
      cases h
      exact ⟨hc, le_rfl, fun x hx _ => hx⟩
    · next hc =>
      obtain ⟨hf, hle, hmax⟩ := ih h
      refine ⟨hf, hle.trans (Lineage.parent_le p a), fun x hx hcx => ?_⟩
      rcases Lineage.le_child.mp hx with rfl | hxp
      · exact absurd hcx hc
      · exact hmax x hxp hcx

theorem firstContained_none {c : CChain} {b : CBlockIndex} (h : c.firstContained b = none) :
    ∀ x ≤ b, c.contains x = false := by
  induction b with
  | root a =>
    simp only [firstContained] at h
    split at h
    · cases h
    · next hc =>
      intro x hx
      obtain rfl := Lineage.le_root.mp hx
      exact Bool.not_eq_true _ ▸ hc
  | child p a ih =>
    simp only [firstContained] at h
    split at h
    · cases h
    · next hc =>
      intro x hx
      rcases Lineage.le_child.mp hx with rfl | hxp
      · exact Bool.not_eq_true _ ▸ hc
      · exact ih h x hxp

theorem firstContained_eq_of_le {c : CChain} {a b : CBlockIndex} (hab : a ≤ b)
    (h : ∀ x ≤ b, a < x → c.contains x = false) : c.firstContained b = c.firstContained a := by
  induction b with
  | root y => rw [Lineage.le_root.mp hab]
  | child p y ih =>
    rcases Lineage.le_child.mp hab with rfl | hap
    · rfl
    · have hlt : a < Lineage.child p y := lt_of_le_of_ne hab fun he => by
        have := Lineage.height_mono hap
        rw [he, Lineage.height_child] at this
        omega
      have hnot := h _ le_rfl hlt
      simp only [firstContained, hnot]
      exact ih hap fun x hx => h x (hx.trans (Lineage.parent_le p y))

/-- Starting at the height of the chain only skips blocks that the chain cannot contain. -/
theorem findFork_eq_firstContained (c : CChain) (b : CBlockIndex) :
    c.findFork b = c.firstContained b := by
  unfold findFork
  split
  · next hlt =>
    by_cases hneg : c.height < 0
    · rw [getAncestor, if_pos hneg, Option.bind_none]
      cases hfirst : c.firstContained b with
      | none => rfl
      | some f =>
        have := height_le_of_contains (firstContained_some hfirst).1
        omega
    · have hlen : c.height.toNat < b.branch.length := by
        rw [Lineage.length_branch]
        omega
      obtain ⟨hab, hh⟩ := Lineage.getElem?_branch.mp (List.getElem?_eq_getElem hlen)
      rw [getAncestor, if_neg hneg, List.getElem?_eq_getElem hlen, Option.bind_some]
      refine (firstContained_eq_of_le hab fun x _ hax => ?_).symm
      by_contra hx
      have := height_le_of_contains (Bool.not_eq_false _ ▸ hx)
      have := Lineage.height_lt hax
      omega
  · rfl

/-- `FindFork` is the last common block of the chain and the line of `b`. -/
theorem findFork_eq_some {c : CChain} {b f t : CBlockIndex} (ht : c.tip = some t)
    (h : c.findFork b = some f) : f ≤ t ∧ f ≤ b ∧ ∀ x, x ≤ t → x ≤ b → x ≤ f := by
  rw [findFork_eq_firstContained] at h
  obtain ⟨hf, hfb, hmax⟩ := firstContained_some h
  obtain ⟨t', ht', hft⟩ := contains_iff.mp hf
  obtain rfl : t = t' := Option.some.inj (ht.symm.trans ht')
  exact ⟨hft, hfb, fun x hxt hxb => hmax x hxb (contains_iff.mpr ⟨t, ht, hxt⟩)⟩

/-- Two blocks over a common block have a fork. -/
theorem exists_findFork {c : CChain} {b t x : CBlockIndex} (ht : c.tip = some t) (hxt : x ≤ t)
    (hxb : x ≤ b) : ∃ f, c.findFork b = some f := by
  rw [findFork_eq_firstContained]
  cases h : c.firstContained b with
  | some f => exact ⟨f, rfl⟩
  | none =>
    have := firstContained_none h x hxb
    rw [contains_iff.mpr ⟨t, ht, hxt⟩] at this
    cases this

/-- The loop of `SetTip`, on the vector after it was resized; its new places are null. -/
def setTipLoop (v : List (Option CBlockIndex)) : CBlockIndex → List (Option CBlockIndex)
  | .root a => if v[0]? = some (some (.root a)) then v else v.set 0 (some (.root a))
  | .child p a =>
    if v[p.height + 1]? = some (some (.child p a)) then v
    else setTipLoop (v.set (p.height + 1) (some (.child p a))) p

def resize (v : List CBlockIndex) (n : ℕ) : List (Option CBlockIndex) :=
  (List.range n).map fun h => v[h]?

/-- Up to height `n` the vector holds, below any block, that block's ancestors. -/
def Settled (n : ℕ) (v : List (Option CBlockIndex)) : Prop :=
  ∀ h ≤ n, ∀ b : CBlockIndex, v[h]? = some (some b) →
    b.height = h ∧ ∀ k ≤ h, v[k]? = some b.branch[k]?

theorem Settled.set {n : ℕ} {v : List (Option CBlockIndex)} (hv : Settled (n + 1) v)
    (x : Option CBlockIndex) : Settled n (v.set (n + 1) x) := by
  intro h hh b hb
  rw [List.getElem?_set_ne (by omega)] at hb
  obtain ⟨he, hk⟩ := hv h (by omega) b hb
  refine ⟨he, fun k hkh => ?_⟩
  rw [List.getElem?_set_ne (by omega)]
  exact hk k hkh

theorem getElem?_setTipLoop {b : CBlockIndex} {v : List (Option CBlockIndex)}
    (hv : Settled b.height v) (hlen : b.height < v.length) (k : ℕ) :
    (k ≤ b.height → (setTipLoop v b)[k]? = some b.branch[k]?) ∧
      (b.height < k → (setTipLoop v b)[k]? = v[k]?) := by
  induction b generalizing v with
  | root a =>
    simp only [setTipLoop, Lineage.height_root, Nat.le_zero]
    split
    case isTrue h0 =>
      refine ⟨fun hk => ?_, fun _ => rfl⟩
      simp [hk, h0]
    case isFalse h0 =>
      have hpos : 0 < v.length := hlen
      refine ⟨fun hk => ?_, fun hk => List.getElem?_set_ne (by omega)⟩
      simp [hk, hpos]
  | child p a ih =>
    simp only [Lineage.height_child] at hv hlen ⊢
    simp only [setTipLoop]
    split
    case isTrue h =>
      exact ⟨(hv _ (Nat.le_refl _) _ h).2 k, fun _ => rfl⟩
    case isFalse h =>
      obtain ⟨hlow, hhigh⟩ := ih (hv.set (some (.child p a))) (by rw [List.length_set]; omega)
      refine ⟨fun hk => ?_, fun hk => ?_⟩
      · rw [Lineage.branch_child]
        by_cases hp : k ≤ p.height
        · rw [hlow hp, List.getElem?_append_left (by simpa using Nat.lt_succ_of_le hp)]
        · obtain rfl : k = p.height + 1 := by omega
          rw [hhigh (by omega), List.getElem?_set_self hlen]
          simp
      · rw [hhigh (by omega), List.getElem?_set_ne (by omega)]

theorem settled_resize (c : CChain) (n : ℕ) : Settled n (resize c.vChain (n + 1)) := by
  intro h hh b hb
  have hget (k : ℕ) (hk : k ≤ n) : (resize c.vChain (n + 1))[k]? = some c.vChain[k]? := by
    simp [resize, Nat.lt_succ_of_le hk]
  rw [hget h hh, Option.some.injEq] at hb
  obtain ⟨t, ht, hbt, he⟩ := getElem?_vChain.mp hb
  refine ⟨he, fun k hk => ?_⟩
  rw [hget k (by omega), eq_setTip c, ht]
  obtain ⟨r, hr⟩ := Lineage.branch_prefix hbt
  rw [setTip, vChain_ofTip, ← hr, List.getElem?_append_left (by simp; omega)]

/-- `SetTip` rewrites only the places that differ, and leaves the chain of the new tip. -/
theorem setTipLoop_resize (c : CChain) (b : CBlockIndex) :
    setTipLoop (resize c.vChain (b.height + 1)) b = (setTip (some b)).vChain.map some := by
  have hlen : (resize c.vChain (b.height + 1)).length = b.height + 1 := by simp [resize]
  have hset := getElem?_setTipLoop (settled_resize c b.height) (by omega)
  apply List.ext_getElem?
  intro k
  rw [List.getElem?_map, setTip, vChain_ofTip]
  by_cases hk : k ≤ b.height
  · have hkb : k < b.branch.length := by simpa using Nat.lt_succ_of_le hk
    rw [(hset k).1 hk, List.getElem?_eq_getElem hkb]
    rfl
  · have hkb : b.branch.length ≤ k := by
      rw [Lineage.length_branch]
      omega
    rw [(hset k).2 (by omega), List.getElem?_eq_none (by omega), List.getElem?_eq_none hkb]
    rfl

end CChain

end Scrypta
