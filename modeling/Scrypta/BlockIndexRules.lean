import Mathlib.Data.Nat.Bitwise
import Scrypta.BlockIndex

/-! What holds of the block index in every run: of each entry, of the tree that the pointers
make, of the sums over the ancestors, of the failures, of the active chain, and of the records
in the database. -/

namespace Scrypta.BlockIndex

open Validation (CDiskBlockIndex blockHaveData blockHaveUndo blockFailedMask blockValidMask
  blockValidScripts)

/-! The bits of the status. -/

theorem and_pow_ne_zero (n i : ℕ) : n &&& 2 ^ i ≠ 0 ↔ n.testBit i = true := by
  rw [Nat.and_two_pow]
  cases n.testBit i <;> simp

theorem testBit_raise {n k i : ℕ} (hk : k < 8) (hi : 3 ≤ i) :
    (n - (n &&& 7) + k).testBit i = n.testBit i := by
  have hmod : n &&& 7 = n % 8 := Nat.and_two_pow_sub_one_eq_mod n 3
  have hraised : n - (n &&& 7) + k = 2 ^ 3 * (n / 8) + k := by omega
  have hsplit : n = 2 ^ 3 * (n / 8) + n % 8 := by omega
  rw [hraised, Nat.testBit_two_pow_mul_add _ hk, if_neg (by omega)]
  conv_rhs => rw [hsplit, Nat.testBit_two_pow_mul_add _ (Nat.mod_lt _ (by decide)),
    if_neg (by omega)]

theorem and_seven_raise {n k : ℕ} (hk : k < 8) : (n - (n &&& 7) + k) &&& 7 = k := by
  have hmod (x : ℕ) : x &&& 7 = x % 8 := Nat.and_two_pow_sub_one_eq_mod x 3
  rw [hmod, hmod]
  omega

namespace Entry

def failedValid (e : Entry) : Bool := e.nStatus.testBit 5

def level (e : Entry) : ℕ := e.nStatus &&& blockValidMask

variable {e : Entry}

theorem hasData_eq : e.hasData = e.nStatus.testBit 3 := by
  rw [hasData, Bool.eq_iff_iff, decide_eq_true_iff]
  exact and_pow_ne_zero _ 3

theorem hasUndo_eq : e.hasUndo = e.nStatus.testBit 4 := by
  rw [hasUndo, Bool.eq_iff_iff, decide_eq_true_iff]
  exact and_pow_ne_zero _ 4

theorem failed_eq : e.failed = (e.failedValid || e.nStatus.testBit 6) := by
  have hmask : e.nStatus &&& 96 = (e.nStatus &&& 2 ^ 5) ||| (e.nStatus &&& 2 ^ 6) :=
    Nat.and_or_distrib_left _ 32 64
  rw [failed, failedValid, Bool.eq_iff_iff, decide_eq_true_iff]
  change e.nStatus &&& 96 ≠ 0 ↔ _
  rw [hmask, Nat.and_two_pow, Nat.and_two_pow]
  cases e.nStatus.testBit 5 <;> cases e.nStatus.testBit 6 <;> simp

theorem testBit_addStatus (i j : ℕ) :
    (e.addStatus (2 ^ i)).nStatus.testBit j = (e.nStatus.testBit j || decide (i = j)) := by
  rw [addStatus, Nat.testBit_or, Nat.testBit_two_pow]

theorem level_addStatus {i : ℕ} (hi : 3 ≤ i) : (e.addStatus (2 ^ i)).level = e.level := by
  refine Nat.eq_of_testBit_eq fun j => ?_
  have hmask : (blockValidMask).testBit j = decide (j < 3) := Nat.testBit_two_pow_sub_one 3 j
  rw [level, level, Nat.testBit_and, Nat.testBit_and, testBit_addStatus, hmask]
  by_cases hj : j < 3
  · simp [hj, show i ≠ j by omega]
  · simp [hj]

theorem raiseValidity_eq (nUpTo : ℕ) :
    e.raiseValidity nUpTo = { e with nStatus := (e.raiseValidity nUpTo).nStatus } := by
  unfold raiseValidity
  split_ifs <;> rfl

theorem testBit_raiseValidity {nUpTo i : ℕ} (hk : nUpTo < 8) (hi : 3 ≤ i) :
    (e.raiseValidity nUpTo).nStatus.testBit i = e.nStatus.testBit i := by
  unfold raiseValidity
  split_ifs
  · rfl
  · exact testBit_raise hk hi
  · rfl

theorem level_raiseValidity {nUpTo : ℕ} (hk : nUpTo < 8) (hfailed : e.failed = false) :
    (e.raiseValidity nUpTo).level = max e.level nUpTo := by
  unfold raiseValidity level
  rw [if_neg (by simp [hfailed])]
  split_ifs with hlt
  · rw [max_eq_right hlt.le]
    exact and_seven_raise hk
  · exact (max_eq_left (not_lt.mp hlt)).symm

theorem level_le_raiseValidity {nUpTo : ℕ} (hk : nUpTo < 8) :
    e.level ≤ (e.raiseValidity nUpTo).level := by
  cases hfailed : e.failed with
  | true => rw [raiseValidity, if_pos hfailed]
  | false =>
    rw [level_raiseValidity hk hfailed]
    exact le_max_left _ _

/-- What the members of an entry have to do with its status and its kind. -/
structure Ok (e : Entry) : Prop where
  tree : blockValidTree ≤ e.level
  data : e.hasData = true ↔ blockValidTransactions ≤ e.level
  txs : e.hasData = true ↔ e.nTx ≠ 0
  dataPos : e.hasData = false → e.nDataPos = 0
  file : e.hasData = false → e.hasUndo = false → e.nFile = 0
  undoPos : e.hasUndo = false → e.nUndoPos = 0
  stake : e.isProofOfStake = false → e.prevoutStake = COutPoint.null ∧ e.nStakeTime = 0

/-- Reading the record of such an entry loses nothing that is in the record. -/
theorem Ok.stored_disk (h : e.Ok) : e.disk.stored = e.disk := by
  have hdata : (e.nStatus &&& blockHaveData ≠ 0) ↔ e.hasData = true := by simp [hasData]
  have hundo : (e.nStatus &&& blockHaveUndo ≠ 0) ↔ e.hasUndo = true := by simp [hasUndo]
  have hstake : (e.nFlags &&& 1 ≠ 0) ↔ e.isProofOfStake = true := by simp [isProofOfStake]
  have hfile : (if e.hasData = true ∨ e.hasUndo = true then e.nFile else 0) = e.nFile := by
    split_ifs with hf
    · rfl
    · exact (h.file (by simpa using fun hd => hf (.inl hd))
        (by simpa using fun hu => hf (.inr hu))).symm
  have hpos : (if e.hasData = true then e.nDataPos else 0) = e.nDataPos := by
    split_ifs with hd
    · rfl
    · exact (h.dataPos (by simpa using hd)).symm
  have hundoPos : (if e.hasUndo = true then e.nUndoPos else 0) = e.nUndoPos := by
    split_ifs with hu
    · rfl
    · exact (h.undoPos (by simpa using hu)).symm
  have hprevout : (if e.isProofOfStake = true then e.prevoutStake else COutPoint.null) =
      e.prevoutStake := by
    split_ifs with hs
    · rfl
    · exact (h.stake (by simpa using hs)).1.symm
  have htime : (if e.isProofOfStake = true then e.nStakeTime else 0) = e.nStakeTime := by
    split_ifs with hs
    · rfl
    · exact (h.stake (by simpa using hs)).2.symm
  simp only [CDiskBlockIndex.stored, disk, hdata, hundo, hstake, hfile, hpos, hundoPos, hprevout,
    htime]

/-- The members that are never assigned again once the block is in the index. -/
def fixed (e : Entry) : Entry where
  pprev := e.pprev
  pskip := e.pskip
  nHeight := e.nHeight
  nTime := e.nTime
  nBits := e.nBits
  nChainWork := e.nChainWork
  nVersion := e.nVersion
  hashMerkleRoot := e.hashMerkleRoot
  nNonce := e.nNonce

def getBlockHash (par : Params) (e : Entry) : Uint256 := e.disk.getBlockHash par.ctx

theorem fixed_raiseValidity (nUpTo : ℕ) : (e.raiseValidity nUpTo).fixed = e.fixed := by
  rw [raiseValidity_eq]
  rfl

end Entry

/-! The tree. -/

theorem invertLowestOne_le (n : ℕ) : invertLowestOne n ≤ n - 1 := Nat.and_le_right

theorem getSkipHeight_lt {height : ℕ} (h : 0 < height) : getSkipHeight height < height := by
  have hfirst := invertLowestOne_le height
  have hsecond := invertLowestOne_le (height - 1)
  have hthird := invertLowestOne_le (invertLowestOne (height - 1))
  unfold getSkipHeight
  split_ifs <;> omega

theorem takesSkip_low {height heightWalk : ℕ} (hlt : height < heightWalk)
    (h : takesSkip height heightWalk = true) :
    height ≤ getSkipHeight heightWalk ∧ getSkipHeight heightWalk < heightWalk := by
  refine ⟨?_, getSkipHeight_lt (by omega)⟩
  simp only [takesSkip, Bool.or_eq_true, Bool.and_eq_true, decide_eq_true_iff] at h
  omega

/-- Where the skip pointer of an entry leads. -/
def skipTarget (m : BlockMap) (e : Entry) : Option Uint256 :=
  e.pprev.bind (Pointers.follow (parent m) (e.nHeight - 1 - getSkipHeight e.nHeight))

def nChainWorkBelow (m : BlockMap) (e : Entry) : Uint256 :=
  (e.pprev.bind m.find).elim 0 (·.nChainWork)

/-- The entry is one height above that of its predecessor, or it is the genesis block. -/
def Rooted (par : Params) (m : BlockMap) (hash : Uint256) (e : Entry) : Prop :=
  (hash = hashOf par par.genesis ∧ e.pprev = none ∧ e.nHeight = 0) ∨
    ∃ p ep, e.pprev = some p ∧ m.find p = some ep ∧ e.nHeight = ep.nHeight + 1

/-- What the pointers make: an entry without a predecessor is at the height 0, any other is one
height above its predecessor, and the skip pointers lead where they should. -/
structure Forest (m : BlockMap) : Prop where
  rooted : ∀ hash e, m.find hash = some e → (e.pprev = none ∧ e.nHeight = 0) ∨
    ∃ p ep, e.pprev = some p ∧ m.find p = some ep ∧ e.nHeight = ep.nHeight + 1
  pskip : ∀ hash e, m.find hash = some e → e.pskip = skipTarget m e

structure Tree (par : Params) (m : BlockMap) : Prop where
  genesis : (m.find (hashOf par par.genesis)).isSome
  rooted : ∀ hash e, m.find hash = some e → Rooted par m hash e
  keyed : ∀ hash e, m.find hash = some e → e.getBlockHash par = hash
  work : ∀ hash e, m.find hash = some e →
    e.nChainWork = nChainWorkBelow m e + getBlockProof e.nBits
  pskip : ∀ hash e, m.find hash = some e → e.pskip = skipTarget m e

/-- The two maps have the same entries, up to what may be assigned again. -/
def SameTree (m m' : BlockMap) : Prop :=
  ∀ hash, (m'.find hash).map Entry.fixed = (m.find hash).map Entry.fixed

section Tree

variable {par : Params} {m m' : BlockMap} {hash p : Uint256} {e ep : Entry}

theorem SameTree.exists_of_find (h : SameTree m m') (he : m'.find hash = some e) :
    ∃ e₀, m.find hash = some e₀ ∧ e₀.fixed = e.fixed := by
  have hmap := h hash
  rw [he, Option.map_some] at hmap
  exact Option.map_eq_some_iff.mp hmap.symm

theorem SameTree.find_of_exists (h : SameTree m m') (he : m.find hash = some e) :
    ∃ e', m'.find hash = some e' ∧ e'.fixed = e.fixed := by
  have hmap := h hash
  rw [he, Option.map_some] at hmap
  exact Option.map_eq_some_iff.mp hmap

theorem Entry.pprev_of_fixed {e e' : Entry} (h : e.fixed = e'.fixed) : e.pprev = e'.pprev := by
  have hfixed := congrArg Entry.pprev h
  exact hfixed

theorem Entry.nHeight_of_fixed {e e' : Entry} (h : e.fixed = e'.fixed) :
    e.nHeight = e'.nHeight := by
  have hfixed := congrArg Entry.nHeight h
  exact hfixed

theorem Entry.nChainWork_of_fixed {e e' : Entry} (h : e.fixed = e'.fixed) :
    e.nChainWork = e'.nChainWork := by
  have hfixed := congrArg Entry.nChainWork h
  exact hfixed

theorem Entry.pskip_of_fixed {e e' : Entry} (h : e.fixed = e'.fixed) : e.pskip = e'.pskip := by
  have hfixed := congrArg Entry.pskip h
  exact hfixed

theorem Entry.nBits_of_fixed {e e' : Entry} (h : e.fixed = e'.fixed) : e.nBits = e'.nBits := by
  have hfixed := congrArg Entry.nBits h
  exact hfixed

theorem SameTree.parent_eq (h : SameTree m m') : parent m' = parent m := by
  funext hash
  have hmap := congrArg (Option.bind · Entry.pprev) (h hash)
  rw [Option.bind_map, Option.bind_map] at hmap
  exact hmap

theorem SameTree.heightOf_eq (h : SameTree m m') (hash : Uint256) :
    heightOf m' hash = heightOf m hash := by
  have hmap := congrArg (Option.elim · 0 Entry.nHeight) (h hash)
  rw [Option.elim_map, Option.elim_map] at hmap
  exact hmap

theorem SameTree.nChainWorkBelow_eq (h : SameTree m m') {e e' : Entry}
    (he : e'.pprev = e.pprev) : nChainWorkBelow m' e' = nChainWorkBelow m e := by
  unfold nChainWorkBelow
  rw [he]
  cases e.pprev with
  | none => rfl
  | some p =>
    have hmap := congrArg (Option.elim · 0 Entry.nChainWork) (h p)
    rw [Option.elim_map, Option.elim_map] at hmap
    exact hmap

theorem Tree.congr (h : Tree par m) (hs : SameTree m m') : Tree par m' where
  genesis := by
    obtain ⟨e, he⟩ := Option.isSome_iff_exists.mp h.genesis
    obtain ⟨e', he', -⟩ := hs.find_of_exists he
    rw [he']
    rfl
  rooted hash e he := by
    obtain ⟨e₀, he₀, hfixed⟩ := hs.exists_of_find he
    have hpprev := Entry.pprev_of_fixed hfixed
    have hheight := Entry.nHeight_of_fixed hfixed
    rcases h.rooted hash e₀ he₀ with ⟨hgen, hnone, hzero⟩ | ⟨p, ep, hp, hep, hnext⟩
    · exact .inl ⟨hgen, hpprev ▸ hnone, hheight ▸ hzero⟩
    · obtain ⟨ep', hep', hfixed'⟩ := hs.find_of_exists hep
      exact .inr ⟨p, ep', hpprev ▸ hp, hep', by
        rw [← hheight, hnext, Entry.nHeight_of_fixed hfixed']⟩
  keyed hash e he := by
    obtain ⟨e₀, he₀, hfixed⟩ := hs.exists_of_find he
    rw [← h.keyed hash e₀ he₀]
    exact (congrArg (Entry.getBlockHash par) hfixed).symm
  work hash e he := by
    obtain ⟨e₀, he₀, hfixed⟩ := hs.exists_of_find he
    rw [hs.nChainWorkBelow_eq (Entry.pprev_of_fixed hfixed).symm,
      ← Entry.nChainWork_of_fixed hfixed, h.work hash e₀ he₀, Entry.nBits_of_fixed hfixed]
  pskip hash e he := by
    obtain ⟨e₀, he₀, hfixed⟩ := hs.exists_of_find he
    rw [← Entry.pskip_of_fixed hfixed, h.pskip hash e₀ he₀, skipTarget, skipTarget, hs.parent_eq,
      Entry.pprev_of_fixed hfixed, Entry.nHeight_of_fixed hfixed]

theorem parent_of_find (h : m.find hash = some e) : parent m hash = e.pprev := by
  rw [parent, h, Option.bind_some]

theorem Forest.find_pprev (h : Forest m) (he : m.find hash = some e) (hp : e.pprev = some p) :
    ∃ ep, m.find p = some ep ∧ e.nHeight = ep.nHeight + 1 := by
  rcases h.rooted hash e he with ⟨hnone, -⟩ | ⟨p', ep, hp', hep, hnext⟩
  · cases hnone.symm.trans hp
  · cases hp'.symm.trans hp
    exact ⟨ep, hep, hnext⟩

/-- The ancestor so many generations up is in the index, at the height to match. -/
theorem Forest.find_follow (h : Forest m) {k : ℕ} {b : Uint256} (he : m.find hash = some e)
    (hb : Pointers.follow (parent m) k hash = some b) :
    ∃ eb, m.find b = some eb ∧ e.nHeight = eb.nHeight + k := by
  induction k generalizing hash e with
  | zero =>
    cases hb
    exact ⟨e, he, rfl⟩
  | succ k ih =>
    rw [Pointers.follow_succ, parent_of_find he] at hb
    obtain ⟨p, hp, hb⟩ := Option.bind_eq_some_iff.mp hb
    obtain ⟨ep, hep, hnext⟩ := h.find_pprev he hp
    obtain ⟨eb, heb, hk⟩ := ih hep hb
    exact ⟨eb, heb, by omega⟩

theorem Forest.skips (h : Forest m) (he : m.find hash = some e) :
    Pointers.Skips (parent m) (skip m) getSkipHeight hash e.nHeight := by
  intro i b hi hb
  obtain ⟨eb, heb, hheight⟩ := h.find_follow he hb
  have hpos : 0 < eb.nHeight := by omega
  have hlt := getSkipHeight_lt hpos
  rw [skip, heb, Option.bind_some, h.pskip b eb heb, skipTarget,
    show e.nHeight - i = eb.nHeight by omega,
    show eb.nHeight - getSkipHeight eb.nHeight =
      (eb.nHeight - 1 - getSkipHeight eb.nHeight) + 1 by omega,
    Pointers.follow_succ, parent_of_find heb]

/-- `GetAncestor` finds the ancestor at the height, whatever pointers it follows. -/
theorem Forest.getAncestor_eq (h : Forest m) (he : m.find hash = some e) {height : ℕ}
    (hle : height ≤ e.nHeight) :
    getAncestor m hash height = Pointers.follow (parent m) (e.nHeight - height) hash := by
  rw [getAncestor, he, Option.bind_some, if_neg (by omega), Int.toNat_natCast]
  exact Pointers.walk_eq (fun w hw => takesSkip_low hw) (h.skips he) (Nat.lt_succ_self _)

theorem Forest.buildSkip_eq (h : Forest m) {e : Entry} (hep : m.find p = some ep)
    (hp : e.pprev = some p) (hnext : e.nHeight = ep.nHeight + 1) :
    buildSkip m e = skipTarget m e := by
  have hlt := getSkipHeight_lt (show 0 < e.nHeight by omega)
  rw [buildSkip, skipTarget, hp, Option.bind_some, Option.bind_some,
    h.getAncestor_eq hep (by omega), show e.nHeight - 1 - getSkipHeight e.nHeight =
      ep.nHeight - getSkipHeight e.nHeight by omega]

theorem Forest.induct (h : Forest m) {P : Uint256 → Entry → Prop}
    (hstep : ∀ hash e, m.find hash = some e →
      (∀ p ep, e.pprev = some p → m.find p = some ep → P p ep) → P hash e) {hash : Uint256}
    {e : Entry} (he : m.find hash = some e) : P hash e := by
  induction hk : e.nHeight generalizing hash e with
  | zero =>
    refine hstep hash e he fun p ep hp _ => ?_
    obtain ⟨ep, -, hnext⟩ := h.find_pprev he hp
    omega
  | succ k ih =>
    refine hstep hash e he fun p ep hp hep => ih hep ?_
    obtain ⟨ep', hep', hnext⟩ := h.find_pprev he hp
    cases hep.symm.trans hep'
    omega

theorem Tree.forest (h : Tree par m) : Forest m where
  rooted hash e he := (h.rooted hash e he).imp_left And.right
  pskip := h.pskip

/-! The line of an entry. -/

theorem Tree.lineOf_eq (h : Tree par m) (he : m.find hash = some e) :
    lineOf m hash = hash :: e.pprev.elim [] (lineOf m) := by
  rcases h.rooted hash e he with ⟨-, hnone, hzero⟩ | ⟨p, ep, hp, hep, hnext⟩
  · rw [lineOf, he, Option.elim_some, hzero, hnone, line, Option.elim_none]
  · rw [lineOf, he, Option.elim_some, hnext, line, parent_of_find he, hp, Option.elim_some,
      lineOf, hep, Option.elim_some]

theorem Tree.self_mem_lineOf (h : Tree par m) (he : m.find hash = some e) :
    hash ∈ lineOf m hash := by
  rw [h.lineOf_eq he]
  exact List.mem_cons_self

theorem Tree.mem_lineOf_iff (h : Tree par m) (he : m.find hash = some e) {x : Uint256} :
    x ∈ lineOf m hash ↔ x = hash ∨ ∃ p, e.pprev = some p ∧ x ∈ lineOf m p := by
  rw [h.lineOf_eq he, List.mem_cons]
  cases e.pprev with
  | none => simp
  | some p => simp

/-- The line of an ancestor is the end of the line. -/
theorem Tree.lineOf_suffix (h : Tree par m) (he : m.find hash = some e) {x : Uint256}
    (hx : x ∈ lineOf m hash) : lineOf m x <:+ lineOf m hash := by
  revert x
  refine h.forest.induct
    (P := fun hash _ => ∀ {x}, x ∈ lineOf m hash → lineOf m x <:+ lineOf m hash)
    (fun hash e he ih x hx => ?_) he
  rcases (h.mem_lineOf_iff he).mp hx with rfl | ⟨p, hp, hx⟩
  · exact List.suffix_refl _
  · obtain ⟨ep, hep, -⟩ := h.forest.find_pprev he hp
    rw [h.lineOf_eq he, hp]
    exact (ih p ep hp hep hx).trans (List.suffix_cons hash _)

theorem Tree.find_of_mem_lineOf (h : Tree par m) (he : m.find hash = some e) {x : Uint256}
    (hx : x ∈ lineOf m hash) : ∃ ex, m.find x = some ex := by
  revert x
  refine h.forest.induct (P := fun hash _ => ∀ {x}, x ∈ lineOf m hash → ∃ ex, m.find x = some ex)
    (fun hash e he ih x hx => ?_) he
  rcases (h.mem_lineOf_iff he).mp hx with rfl | ⟨p, hp, hx⟩
  · exact ⟨e, he⟩
  · obtain ⟨ep, hep, -⟩ := h.forest.find_pprev he hp
    exact ih p ep hp hep hx

/-- Along the line the heights go down by one. -/
theorem Tree.height_getElem? (h : Tree par m) (he : m.find hash = some e) {i : ℕ} {x : Uint256}
    {ex : Entry} (hi : (lineOf m hash)[i]? = some x) (hx : m.find x = some ex) :
    ex.nHeight + i = e.nHeight := by
  revert i
  refine h.forest.induct (P := fun hash e => ∀ {i}, (lineOf m hash)[i]? = some x →
    ex.nHeight + i = e.nHeight) (fun hash e he ih i hi => ?_) he
  rw [h.lineOf_eq he] at hi
  cases i with
  | zero =>
    cases hi
    cases he.symm.trans hx
    rfl
  | succ i =>
    rw [List.getElem?_cons_succ] at hi
    cases hp : e.pprev with
    | none => simp [hp] at hi
    | some p =>
      obtain ⟨ep, hep, hnext⟩ := h.forest.find_pprev he hp
      rw [hp] at hi
      have := ih p ep hp hep hi
      omega

theorem Tree.length_lineOf (h : Tree par m) (he : m.find hash = some e) :
    (lineOf m hash).length = e.nHeight + 1 := by
  refine h.forest.induct (P := fun hash e => (lineOf m hash).length = e.nHeight + 1)
    (fun hash e he ih => ?_) he
  rw [h.lineOf_eq he, List.length_cons]
  rcases h.rooted hash e he with ⟨-, hnone, hzero⟩ | ⟨p, ep, hp, hep, hnext⟩
  · rw [hnone, hzero]
    rfl
  · rw [hp, Option.elim_some, ih p ep hp hep, hnext]

theorem SameTree.lineOf_eq (h : SameTree m m') (hash : Uint256) :
    lineOf m' hash = lineOf m hash := by
  have hline : line m' = line m := by
    funext k x
    induction k generalizing x with
    | zero => rfl
    | succ k ih =>
      rw [line, line, h.parent_eq]
      cases parent m x with
      | none => rfl
      | some p => exact congrArg (x :: ·) (ih p)
  rw [lineOf, lineOf, hline]
  exact congrArg (line m · hash) (h.heightOf_eq hash)

/-! A new entry. -/

section NewEntry

variable {proc : Process} {block : CBlock} {hashProofOfStake : Uint256}

/-- What a new entry points to. -/
def placed (block : CBlock) (ep : Entry) : Entry :=
  { entryOf block with pprev := some block.hashPrevBlock, nHeight := ep.nHeight + 1 }

theorem fixed_newEntry (par : Params) (proc : Process) (hashProofOfStake : Uint256)
    (hep : m.find block.hashPrevBlock = some ep) :
    (newEntry par proc m block hashProofOfStake).fixed =
      { (placed block ep).fixed with
        pskip := buildSkip m (placed block ep)
        nChainWork := ep.nChainWork + getBlockProof block.nBits } := by
  simp only [newEntry, hep]
  rw [Entry.fixed_raiseValidity]
  rfl

theorem find_newEntry (hnew : m.find hash = none) (e : Entry) {x : Uint256} {ex : Entry}
    (hx : m.find x = some ex) : (m.set hash e).find x = some ex := by
  rw [Dict.find_set, if_neg, hx]
  rintro rfl
  cases hnew.symm.trans hx

theorem Forest.follow_set (h : Forest m) (hnew : m.find hash = none) (e : Entry) {x : Uint256}
    {ex : Entry} (hx : m.find x = some ex) (k : ℕ) :
    Pointers.follow (parent (m.set hash e)) k x = Pointers.follow (parent m) k x := by
  refine Pointers.follow_congr k fun i b _ hb => ?_
  obtain ⟨eb, heb, -⟩ := h.find_follow hx hb
  rw [parent_of_find heb, parent_of_find (find_newEntry hnew e heb)]

theorem Forest.skipTarget_set (h : Forest m) (hnew : m.find hash = none) (e : Entry) {ex : Entry}
    (hpprev : ∀ p, ex.pprev = some p → ∃ ep, m.find p = some ep) :
    skipTarget (m.set hash e) ex = skipTarget m ex := by
  rw [skipTarget, skipTarget]
  cases hp : ex.pprev with
  | none => rfl
  | some p =>
    obtain ⟨ep, hep⟩ := hpprev p hp
    exact h.follow_set hnew e hep _

theorem nChainWorkBelow_set (hnew : m.find hash = none) (e : Entry) {ex : Entry}
    (hpprev : ∀ p, ex.pprev = some p → ∃ ep, m.find p = some ep) :
    nChainWorkBelow (m.set hash e) ex = nChainWorkBelow m ex := by
  rw [nChainWorkBelow, nChainWorkBelow]
  cases hp : ex.pprev with
  | none => rfl
  | some p =>
    obtain ⟨ep, hep⟩ := hpprev p hp
    rw [Option.bind_some, Option.bind_some, hep, find_newEntry hnew e hep]

/-- The entry of a block whose predecessor is not in the index is the root of a tree. -/
theorem fixed_newEntry_of_none (par : Params) (proc : Process) (hashProofOfStake : Uint256)
    (hep : m.find block.hashPrevBlock = none) :
    (newEntry par proc m block hashProofOfStake).fixed =
      { (entryOf block).fixed with nChainWork := getBlockProof block.nBits } := by
  simp only [newEntry, hep]
  rw [Entry.fixed_raiseValidity]
  rfl

/-- An entry that points nowhere, or whose pointers are set from the index, goes into the index. -/
theorem Forest.set (h : Forest m) (hnew : m.find hash = none)
    (hentry : (e.pprev = none ∧ e.nHeight = 0 ∧ e.pskip = none) ∨ ∃ p ep, e.pprev = some p ∧
      m.find p = some ep ∧ e.nHeight = ep.nHeight + 1 ∧ e.pskip = buildSkip m e) :
    Forest (m.set hash e) where
  rooted := by
    intro x ex hx
    rcases Dict.find_set_cases hx with ⟨rfl, rfl⟩ | ⟨-, hx⟩
    · rcases hentry with ⟨hnone, hzero, -⟩ | ⟨p, ep, hp, hep, hnext, -⟩
      · exact .inl ⟨hnone, hzero⟩
      · exact .inr ⟨p, ep, hp, find_newEntry hnew _ hep, hnext⟩
    · rcases h.rooted x ex hx with hroot | ⟨p, ep', hp, hep', hnext⟩
      · exact .inl hroot
      · exact .inr ⟨p, ep', hp, find_newEntry hnew e hep', hnext⟩
  pskip := by
    intro x ex hx
    rcases Dict.find_set_cases hx with ⟨rfl, rfl⟩ | ⟨-, hx⟩
    · rcases hentry with ⟨hnone, -, hskip⟩ | ⟨p, ep, hp, hep, hnext, hskip⟩
      · rw [hskip, skipTarget, hnone, Option.bind_none]
      · rw [h.skipTarget_set hnew ex fun p' hp' => ⟨ep, Option.some.inj (hp.symm.trans hp') ▸ hep⟩,
          hskip, h.buildSkip_eq hep hp hnext]
    · rw [h.skipTarget_set hnew e fun p hp => (h.find_pprev hx hp).imp fun _ hep => hep.1]
      exact h.pskip x ex hx

theorem Tree.add (h : Tree par m) (hnew : m.find (hashOf par block) = none)
    (hep : m.find block.hashPrevBlock = some ep) :
    Tree par (m.set (hashOf par block) (newEntry par proc m block hashProofOfStake)) := by
  have hfixed := fixed_newEntry par proc hashProofOfStake hep
  generalize newEntry par proc m block hashProofOfStake = e at hfixed
  have hpprev : e.pprev = some block.hashPrevBlock := congrArg Entry.pprev hfixed
  have hheight : e.nHeight = ep.nHeight + 1 := congrArg Entry.nHeight hfixed
  have hprev {hash ex} (hx : m.find hash = some ex) (p : Uint256) (hp : ex.pprev = some p) :
      ∃ ep, m.find p = some ep :=
    (h.forest.find_pprev hx hp).imp fun _ hep => hep.1
  have hprevNew (p : Uint256) (hp : e.pprev = some p) : ∃ ep, m.find p = some ep := by
    cases hpprev.symm.trans hp
    exact ⟨ep, hep⟩
  constructor
  · obtain ⟨eg, heg⟩ := Option.isSome_iff_exists.mp h.genesis
    rw [find_newEntry hnew e heg]
    rfl
  · intro hash ex hx
    rcases Dict.find_set_cases hx with ⟨rfl, rfl⟩ | ⟨-, hx⟩
    · exact .inr ⟨block.hashPrevBlock, ep, hpprev, find_newEntry hnew _ hep, hheight⟩
    · rcases h.rooted hash ex hx with hroot | ⟨p, ep', hp, hep', hnext⟩
      · exact .inl hroot
      · exact .inr ⟨p, ep', hp, find_newEntry hnew e hep', hnext⟩
  · intro hash ex hx
    rcases Dict.find_set_cases hx with ⟨rfl, rfl⟩ | ⟨-, hx⟩
    · exact congrArg (Entry.getBlockHash par) hfixed
    · exact h.keyed hash ex hx
  · intro hash ex hx
    rcases Dict.find_set_cases hx with ⟨rfl, rfl⟩ | ⟨-, hx⟩
    · have hwork : ex.nChainWork = ep.nChainWork + getBlockProof block.nBits :=
        congrArg Entry.nChainWork hfixed
      have hbits : ex.nBits = block.nBits := congrArg Entry.nBits hfixed
      rw [nChainWorkBelow_set hnew ex hprevNew, nChainWorkBelow, hpprev, Option.bind_some, hep,
        hwork, hbits]
      rfl
    · rw [nChainWorkBelow_set hnew e (hprev hx)]
      exact h.work hash ex hx
  · refine (h.forest.set hnew (Or.inr ⟨_, ep, hpprev, hep, hheight, ?_⟩)).pskip
    have hskip : e.pskip = buildSkip m (placed block ep) := congrArg Entry.pskip hfixed
    rw [hskip, buildSkip, buildSkip, hpprev, hheight]
    rfl

end NewEntry

end Tree

end Scrypta.BlockIndex
