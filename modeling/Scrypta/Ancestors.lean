import Scrypta.BlockIndexRules

/-! The index that `AddToBlockIndex` builds, block by block, whatever comes in which order. The
ancestor at a height, found over the skip pointers, is the one that the steps to the predecessor
lead to, and two blocks have the highest block that is above both. -/

namespace Scrypta.BlockIndex

section Definitions

variable (par : Params) (proc : Process) (m : BlockMap)

/-- `AddToBlockIndex` with its check for a block that is there already. -/
def addBlock (n : Node) (block : CBlock) (hashProofOfStake : Uint256) : Node :=
  if (n.find (hashOf par block)).isSome then n
  else addToBlockIndex par proc n block hashProofOfStake

/-- The node after so many calls, each with the proof-of-stake hash of its block. -/
def built (blocks : List (CBlock × Uint256)) : Node :=
  blocks.foldl (fun n b => addBlock par proc n b.1 b.2) {}

/-- The lower one of the heights is taken for both, then both go to their predecessors. `none` is
a failed assertion. -/
def lastCommonAncestor (pa pb : Uint256) : Option (Option Uint256) :=
  let ha := heightOf m pa
  let hb := heightOf m pb
  let qa := if hb < ha then getAncestor m pa hb else some pa
  let qb := if ha < hb then getAncestor m pb ha else some pb
  (Pointers.meet (parent m) (min ha hb + 2) qa qb).bind fun q =>
    if q.1 = q.2 then some q.1 else none

/-- The block or one above it. -/
def Ancestor (a x : Uint256) : Prop := ∃ k, Pointers.follow (parent m) k a = some x

structure HighestCommon (a b c : Uint256) : Prop where
  left : Ancestor m a c
  right : Ancestor m b c
  highest : ∀ x, Ancestor m a x → Ancestor m b x → heightOf m x ≤ heightOf m c

/-- There is one block without a predecessor at most. -/
def OneRoot : Prop :=
  ∀ a ea b eb, m.find a = some ea → m.find b = some eb → ea.pprev = none → eb.pprev = none → a = b

end Definitions

section Building

variable {par : Params} {proc : Process} {m : BlockMap}

theorem Forest.empty : Forest (Dict.empty : BlockMap) where
  rooted _ _ h := by cases h
  pskip _ _ h := by cases h

/-- The entry of any block, its predecessor known or not, goes well with the others. -/
theorem Forest.add (h : Forest m) {block : CBlock} (hashProofOfStake : Uint256)
    (hnew : m.find (hashOf par block) = none) :
    Forest (m.set (hashOf par block) (newEntry par proc m block hashProofOfStake)) := by
  refine h.set hnew ?_
  cases hep : m.find block.hashPrevBlock with
  | none =>
    have hfixed := fixed_newEntry_of_none par proc hashProofOfStake hep
    exact Or.inl ⟨congrArg Entry.pprev hfixed, congrArg Entry.nHeight hfixed,
      congrArg Entry.pskip hfixed⟩
  | some ep =>
    have hfixed := fixed_newEntry par proc hashProofOfStake hep
    have hpprev : (newEntry par proc m block hashProofOfStake).pprev = some block.hashPrevBlock :=
      congrArg Entry.pprev hfixed
    have hheight : (newEntry par proc m block hashProofOfStake).nHeight = ep.nHeight + 1 :=
      congrArg Entry.nHeight hfixed
    have hskip : (newEntry par proc m block hashProofOfStake).pskip =
        buildSkip m (placed block ep) := congrArg Entry.pskip hfixed
    refine Or.inr ⟨_, ep, hpprev, hep, hheight, ?_⟩
    rw [hskip, buildSkip, buildSkip, hpprev, hheight]
    rfl

theorem forest_addBlock {n : Node} (h : Forest n.mapBlockIndex) (block : CBlock)
    (hashProofOfStake : Uint256) :
    Forest (addBlock par proc n block hashProofOfStake).mapBlockIndex := by
  unfold addBlock
  split_ifs with hknown
  · exact h
  · have hnew : n.mapBlockIndex.find (hashOf par block) = none :=
      Option.not_isSome_iff_eq_none.mp hknown
    have hadd : Forest (n.mapBlockIndex.set (hashOf par block)
        (newEntry par proc n.mapBlockIndex block hashProofOfStake)) := h.add hashProofOfStake hnew
    unfold addToBlockIndex Node.insertDirty Node.insertStake
    split_ifs <;> exact hadd

theorem forest_built (par : Params) (proc : Process) (blocks : List (CBlock × Uint256)) :
    Forest (built par proc blocks).mapBlockIndex := by
  have hrun : ∀ (blocks : List (CBlock × Uint256)) (n : Node), Forest n.mapBlockIndex →
      Forest (blocks.foldl (fun n b => addBlock par proc n b.1 b.2) n).mapBlockIndex := by
    intro blocks
    induction blocks with
    | nil => exact fun n h => h
    | cons b rest ih => exact fun n h => ih _ (forest_addBlock h b.1 b.2)
  exact hrun blocks {} Forest.empty

end Building

section Meeting

variable {m : BlockMap} {a b x : Uint256} {ea eb ex : Entry}

theorem heightOf_of_find (h : m.find a = some ea) : heightOf m a = ea.nHeight := by
  rw [heightOf, h, Option.elim_some]

/-- Above an entry there are as many others as its height says. -/
theorem Forest.depth (h : Forest m) (hea : m.find a = some ea) :
    Pointers.Depth (parent m) ea.nHeight a := by
  refine h.induct (P := fun a ea => Pointers.Depth (parent m) ea.nHeight a)
    (fun a ea hea ih => ?_) hea
  rcases h.rooted a ea hea with ⟨hnone, hzero⟩ | ⟨p, ep, hp, hep, hnext⟩
  · rw [hzero, Pointers.Depth, parent_of_find hea, hnone]
  · rw [hnext, Pointers.Depth]
    exact ⟨p, by rw [parent_of_find hea, hp], ih p ep hp hep⟩

/-- At each height from an entry's own down to 0 there is an ancestor. -/
theorem Forest.follow_height (h : Forest m) (hea : m.find a = some ea) {k : ℕ}
    (hk : k ≤ ea.nHeight) :
    ∃ x ex, Pointers.follow (parent m) k a = some x ∧ m.find x = some ex ∧
      ex.nHeight = ea.nHeight - k := by
  obtain ⟨x, hx⟩ := (h.depth hea).follow_isSome hk
  obtain ⟨ex, hex, hheight⟩ := h.find_follow hea hx
  exact ⟨x, ex, hx, hex, by omega⟩

/-- The height tells how many generations up an ancestor is. -/
theorem Forest.ancestor_iff (h : Forest m) (hea : m.find a = some ea) :
    Ancestor m a x ↔ ∃ ex, m.find x = some ex ∧ ex.nHeight ≤ ea.nHeight ∧
      Pointers.follow (parent m) (ea.nHeight - ex.nHeight) a = some x := by
  constructor
  · rintro ⟨k, hk⟩
    obtain ⟨ex, hex, hheight⟩ := h.find_follow hea hk
    refine ⟨ex, hex, by omega, ?_⟩
    rwa [show ea.nHeight - ex.nHeight = k by omega]
  · rintro ⟨ex, -, -, hx⟩
    exact ⟨_, hx⟩

/-- What is above an entry and not too high is above its ancestor. -/
theorem Forest.ancestor_of_le (h : Forest m) (hea : m.find a = some ea) {k : ℕ}
    (hb : Pointers.follow (parent m) k a = some b) (heb : m.find b = some eb)
    (hex : m.find x = some ex) (hle : ex.nHeight ≤ eb.nHeight) :
    Ancestor m b x ↔ Ancestor m a x := by
  obtain ⟨eb', heb', hk⟩ := h.find_follow hea hb
  obtain rfl : eb = eb' := Option.some.inj (heb.symm.trans heb')
  constructor
  · rintro ⟨j, hj⟩
    exact ⟨k + j, by rw [Pointers.follow_add, hb, Option.bind_some, hj]⟩
  · intro hx
    obtain ⟨ex', hex', -, hfollow⟩ := (h.ancestor_iff hea).mp hx
    obtain rfl : ex = ex' := Option.some.inj (hex.symm.trans hex')
    rw [show ea.nHeight - ex.nHeight = k + (eb.nHeight - ex.nHeight) by omega,
      Pointers.follow_add, hb, Option.bind_some] at hfollow
    exact ⟨_, hfollow⟩

/-- What the walk of two entries of one height finds. -/
structure Meets (m : BlockMap) (a b : Uint256) (r : Option Uint256) : Prop where
  highest : ∀ c, r = some c ↔ HighestCommon m a b c
  found : ∀ x, Ancestor m a x → Ancestor m b x → r ≠ none

theorem Forest.meets_of_first (h : Forest m) (hea : m.find a = some ea) (heb : m.find b = some eb)
    (hlevel : ea.nHeight = eb.nHeight) {k : ℕ} {r : Option Uint256}
    (ha : Pointers.follow (parent m) k a = r) (hb : Pointers.follow (parent m) k b = r)
    (hfirst : ∀ j < k, Pointers.follow (parent m) j a ≠ Pointers.follow (parent m) j b) :
    Meets m a b r := by
  -- a common block is at least so many generations up
  have hcommon : ∀ x, Ancestor m a x → Ancestor m b x → ∃ ex, m.find x = some ex ∧
      ex.nHeight + k ≤ ea.nHeight := by
    intro x hxa hxb
    obtain ⟨ex, hex, hle, hfa⟩ := (h.ancestor_iff hea).mp hxa
    obtain ⟨ex', hex', -, hfb⟩ := (h.ancestor_iff heb).mp hxb
    obtain rfl : ex = ex' := Option.some.inj (hex.symm.trans hex')
    refine ⟨ex, hex, ?_⟩
    by_contra hlt
    refine hfirst (ea.nHeight - ex.nHeight) (by omega) ?_
    rw [hfa, hlevel, hfb]
  have hmeet : ∀ c, r = some c → HighestCommon m a b c := by
    rintro c rfl
    obtain ⟨ec, hec, hheight⟩ := h.find_follow hea ha
    refine ⟨⟨k, ha⟩, ⟨k, hb⟩, fun x hxa hxb => ?_⟩
    obtain ⟨ex, hex, hle⟩ := hcommon x hxa hxb
    rw [heightOf_of_find hex, heightOf_of_find hec]
    omega
  have hfound : ∀ x, Ancestor m a x → Ancestor m b x → ∃ c, r = some c := by
    intro x hxa hxb
    obtain ⟨ex, -, hle⟩ := hcommon x hxa hxb
    obtain ⟨c, -, hc, -⟩ := h.follow_height hea (k := k) (by omega)
    exact ⟨c, ha.symm.trans hc⟩
  refine ⟨fun c => ⟨hmeet c, fun hc => ?_⟩, fun x hxa hxb hnone => ?_⟩
  · obtain ⟨c', hc'⟩ := hfound c hc.left hc.right
    obtain ⟨ec, hec, hle⟩ := hcommon c hc.left hc.right
    obtain ⟨ec', hec', hheight⟩ := h.find_follow hea (ha.trans hc')
    have hhigh := hc.highest c' (hmeet c' hc').left (hmeet c' hc').right
    rw [heightOf_of_find hec, heightOf_of_find hec'] at hhigh
    obtain ⟨ec₁, hec₁, -, hfollow⟩ := (h.ancestor_iff hea).mp hc.left
    obtain rfl : ec = ec₁ := Option.some.inj (hec.symm.trans hec₁)
    rw [show ea.nHeight - ec.nHeight = k by omega] at hfollow
    exact ha.symm.trans hfollow
  · obtain ⟨c, hc⟩ := hfound x hxa hxb
    cases hnone.symm.trans hc

/-- The blocks above two entries are those above the ancestors at the lower height. -/
theorem Meets.lower (h : Forest m) (hea : m.find a = some ea) (heb : m.find b = some eb) {ka kb : ℕ}
    {a' b' : Uint256} {ea' eb' : Entry} (ha : Pointers.follow (parent m) ka a = some a')
    (hb : Pointers.follow (parent m) kb b = some b') (hea' : m.find a' = some ea')
    (heb' : m.find b' = some eb') (hheight : ea'.nHeight = min ea.nHeight eb.nHeight)
    (hlevel : ea'.nHeight = eb'.nHeight) {r : Option Uint256} (hr : Meets m a' b' r) :
    Meets m a b r := by
  have hsame : ∀ x, Ancestor m a x ∧ Ancestor m b x ↔ Ancestor m a' x ∧ Ancestor m b' x := by
    intro x
    constructor
    · rintro ⟨hxa, hxb⟩
      obtain ⟨ex, hex, hlea, -⟩ := (h.ancestor_iff hea).mp hxa
      obtain ⟨ex', hex', hleb, -⟩ := (h.ancestor_iff heb).mp hxb
      obtain rfl : ex = ex' := Option.some.inj (hex.symm.trans hex')
      exact ⟨(h.ancestor_of_le hea ha hea' hex (by omega)).mpr hxa,
        (h.ancestor_of_le heb hb heb' hex (by omega)).mpr hxb⟩
    · rintro ⟨⟨j, hxa⟩, ⟨k, hxb⟩⟩
      exact ⟨⟨ka + j, by rw [Pointers.follow_add, ha, Option.bind_some, hxa]⟩,
        ⟨kb + k, by rw [Pointers.follow_add, hb, Option.bind_some, hxb]⟩⟩
  refine ⟨fun c => ?_, fun x hxa hxb => ?_⟩
  · rw [hr.highest]
    constructor
    · rintro ⟨hl, hr, hhigh⟩
      obtain ⟨hca, hcb⟩ := (hsame c).mpr ⟨hl, hr⟩
      exact ⟨hca, hcb, fun x hxa hxb =>
        hhigh x ((hsame x).mp ⟨hxa, hxb⟩).1 ((hsame x).mp ⟨hxa, hxb⟩).2⟩
    · rintro ⟨hl, hr, hhigh⟩
      obtain ⟨hca, hcb⟩ := (hsame c).mp ⟨hl, hr⟩
      exact ⟨hca, hcb, fun x hxa hxb =>
        hhigh x ((hsame x).mpr ⟨hxa, hxb⟩).1 ((hsame x).mpr ⟨hxa, hxb⟩).2⟩
  · obtain ⟨hxa', hxb'⟩ := (hsame x).mp ⟨hxa, hxb⟩
    exact hr.found x hxa' hxb'

/-- Each pointer goes down to the lower height. -/
theorem Forest.lowered (h : Forest m) (hea : m.find a = some ea) (hb : ℕ) :
    ∃ a' ea', (if hb < heightOf m a then getAncestor m a hb else some a) = some a' ∧
      Pointers.follow (parent m) (ea.nHeight - hb) a = some a' ∧ m.find a' = some ea' ∧
      ea'.nHeight = min ea.nHeight hb := by
  rw [heightOf_of_find hea]
  obtain ⟨a', ea', hfollow, hea', hheight⟩ := h.follow_height hea (k := ea.nHeight - hb) (by omega)
  refine ⟨a', ea', ?_, hfollow, hea', by omega⟩
  split_ifs with hlt
  · rw [h.getAncestor_eq hea (by omega), hfollow]
  · rwa [show ea.nHeight - hb = 0 by omega, Pointers.follow_zero] at hfollow

/-- The two walks end at one pointer, to the highest block that is above both. -/
theorem Forest.lastCommonAncestor_eq (h : Forest m) (hea : m.find a = some ea)
    (heb : m.find b = some eb) : ∃ r, lastCommonAncestor m a b = some r ∧ Meets m a b r := by
  obtain ⟨a', ea', hqa, hfa, hea', hha⟩ := h.lowered hea (heightOf m b)
  obtain ⟨b', eb', hqb, hfb, heb', hhb⟩ := h.lowered heb (heightOf m a)
  rw [heightOf_of_find heb] at hha hfa
  rw [heightOf_of_find hea] at hhb hfb
  have hlevel : ea'.nHeight = eb'.nHeight := by omega
  have hdeepB : Pointers.Depth (parent m) ea'.nHeight b' := hlevel ▸ h.depth heb'
  obtain ⟨k, r, hmeet, hka, hkb, hfirst⟩ := Pointers.meet_eq (h.depth hea') hdeepB
    (Nat.lt_succ_self (ea'.nHeight + 1))
  have hr : Meets m a' b' r := h.meets_of_first hea' heb' hlevel hka hkb hfirst
  refine ⟨r, ?_, hr.lower h hea heb hfa hfb hea' heb' hha hlevel⟩
  unfold lastCommonAncestor
  dsimp only
  rw [hqa, hqb, heightOf_of_find hea, heightOf_of_find heb, ← hha, hmeet, Option.bind_some,
    if_pos rfl]

/-- Where all blocks descend from one there is a common one. -/
theorem Forest.exists_common (h : Forest m) (hroot : OneRoot m) (hea : m.find a = some ea)
    (heb : m.find b = some eb) : ∃ x, Ancestor m a x ∧ Ancestor m b x := by
  have htop : ∀ {a ea}, m.find a = some ea →
      ∃ x ex, Ancestor m a x ∧ m.find x = some ex ∧ ex.pprev = none := by
    intro a ea hea
    obtain ⟨x, ex, hx, hex, hzero⟩ := h.follow_height hea (le_refl _)
    rcases h.rooted x ex hex with ⟨hnone, -⟩ | ⟨p, ep, -, -, hnext⟩
    · exact ⟨x, ex, ⟨_, hx⟩, hex, hnone⟩
    · omega
  obtain ⟨x, ex, hxa, hex, hnone⟩ := htop hea
  obtain ⟨y, ey, hyb, hey, hnone'⟩ := htop heb
  obtain rfl := hroot x ex y ey hex hey hnone hnone'
  exact ⟨x, hxa, hyb⟩

end Meeting

/-- In an index that is built block by block, the ancestor that is found at a height is the one as
many steps to the predecessor lead to, at another height there is none, and the last common
ancestor is the highest common block, if the two blocks have one. -/
theorem built_ancestors (par : Params) (proc : Process) (blocks : List (CBlock × Uint256)) :
    (∀ hash e, (built par proc blocks).find hash = some e → ∀ height : ℤ,
      (0 ≤ height ∧ height ≤ e.nHeight → ∃ x,
        getAncestor (built par proc blocks).mapBlockIndex hash height = some x ∧
        Pointers.follow (parent (built par proc blocks).mapBlockIndex)
          (e.nHeight - height).toNat hash = some x) ∧
      (height < 0 ∨ e.nHeight < height →
        getAncestor (built par proc blocks).mapBlockIndex hash height = none)) ∧
    ∀ a b, ((built par proc blocks).find a).isSome → ((built par proc blocks).find b).isSome →
      ∃ r, lastCommonAncestor (built par proc blocks).mapBlockIndex a b = some r ∧
        (∀ c, r = some c ↔ HighestCommon (built par proc blocks).mapBlockIndex a b c) ∧
        (OneRoot (built par proc blocks).mapBlockIndex → r ≠ none) := by
  have hforest := forest_built par proc blocks
  constructor
  · intro hash e he height
    constructor
    · rintro ⟨hlow, hhigh⟩
      obtain ⟨k, rfl⟩ := Int.eq_ofNat_of_zero_le hlow
      obtain ⟨x, ex, hx, -⟩ := hforest.follow_height he (k := e.nHeight - k) (by omega)
      refine ⟨x, ?_, ?_⟩
      · rw [hforest.getAncestor_eq he (by omega), hx]
      · rwa [show ((e.nHeight : ℤ) - k).toNat = e.nHeight - k by omega]
    · intro hout
      change ((built par proc blocks).find hash).bind _ = none
      rw [he, Option.bind_some, if_pos hout.symm]
  · intro a b ha hb
    obtain ⟨ea, hea⟩ := Option.isSome_iff_exists.mp ha
    obtain ⟨eb, heb⟩ := Option.isSome_iff_exists.mp hb
    obtain ⟨r, hr, hmeets⟩ := hforest.lastCommonAncestor_eq hea heb
    refine ⟨r, hr, hmeets.highest, fun hroot => ?_⟩
    obtain ⟨x, hxa, hxb⟩ := hforest.exists_common hroot hea heb
    exact hmeets.found x hxa hxb

end Scrypta.BlockIndex
