import Mathlib.Data.List.MinMax
import Mathlib.Data.Prod.Lex
import Mathlib.Logic.Function.Basic
import Scrypta.Kernel

/-! The block tree of a node, its candidate tips, and the activation of the best chain. What
`ConnectBlock` and `DisconnectBlock` do to one block is a parameter; activation is a loop that
need not end, so it runs for a given number of rounds. -/

namespace Scrypta.Chainstate

open Kernel (BlockMap)

/-- The total work of the chain up to a block. -/
def nChainWork : CBlockIndex → ℕ
  | .root a => (getBlockProof a.nBits).toNat
  | .child p a => nChainWork p + (getBlockProof a.nBits).toNat

/-- The part of an index entry that changes after the block entered the index. -/
structure Entry where
  nTx : ℕ := 0
  nChainTx : ℕ := 0
  nSequenceId : ℕ := 0
  fHaveData : Bool := false
  fFailedValid : Bool := false
  fFailedChild : Bool := false
  deriving DecidableEq, Repr

/-- `BLOCK_FAILED_MASK` -/
def Entry.failed (e : Entry) : Bool := e.fFailedValid || e.fFailedChild

/-- `address` is where the program keeps the entry; it breaks ties between candidates. -/
structure Node where
  mapBlockIndex : BlockMap
  entry : CBlockIndex → Entry
  address : CBlockIndex → ℕ
  chainActive : CChain
  setBlockIndexCandidates : List CBlockIndex
  mapBlocksUnlinked : List (CBlockIndex × CBlockIndex)
  nBlockSequenceId : ℕ

namespace Node

def tip (n : Node) : Option CBlockIndex := n.chainActive.tip

def modifyEntry (n : Node) (b : CBlockIndex) (f : Entry → Entry) : Node :=
  { n with entry := Function.update n.entry b (f (n.entry b)) }

def eraseCandidate (n : Node) (b : CBlockIndex) : Node :=
  { n with setBlockIndexCandidates := n.setBlockIndexCandidates.filter (· ≠ b) }

def setTip (n : Node) (b : Option CBlockIndex) : Node :=
  { n with chainActive := CChain.setTip b }

/-- `CBlockIndexWorkComparator` -/
def workLess (n : Node) (pa pb : CBlockIndex) : Bool :=
  if nChainWork pb < nChainWork pa then false
  else if nChainWork pa < nChainWork pb then true
  else if (n.entry pa).nSequenceId < (n.entry pb).nSequenceId then false
  else if (n.entry pb).nSequenceId < (n.entry pa).nSequenceId then true
  else if n.address pa < n.address pb then false
  else if n.address pb < n.address pa then true
  else false

/-- The place of a block in the order of `workLess`. -/
def rank (n : Node) (b : CBlockIndex) : ℕ ×ₗ ℕᵒᵈ ×ₗ ℕᵒᵈ :=
  toLex (nChainWork b,
    toLex (OrderDual.toDual (n.entry b).nSequenceId, OrderDual.toDual (n.address b)))

/-- The last candidate in the order of `workLess`. -/
def bestCandidate (n : Node) : Option CBlockIndex := n.setBlockIndexCandidates.argmax n.rank

end Node

/-! Finding the chain with the most work. -/

/-- The block and its ancestors down to the active chain, the youngest first. -/
def offChain (n : Node) (b : CBlockIndex) : List CBlockIndex :=
  b.line.takeWhile fun x => !n.chainActive.contains x

def unusable (n : Node) (b : CBlockIndex) : Bool := (n.entry b).failed || !(n.entry b).fHaveData

/-- `pindexTest` is the first unusable block under a candidate, `younger` are the blocks from
the candidate down to it. -/
def dropChain (n : Node) (pindexTest : CBlockIndex) (younger : List CBlockIndex) : Node :=
  let fFailedChain := (n.entry pindexTest).failed
  { n with
    entry := fun b =>
      if fFailedChain && younger.contains b then { n.entry b with fFailedChild := true }
      else n.entry b
    mapBlocksUnlinked :=
      if fFailedChain then n.mapBlocksUnlinked
      else n.mapBlocksUnlinked ++ younger.filterMap fun b => b.parent?.map fun p => (p, b)
    setBlockIndexCandidates :=
      n.setBlockIndexCandidates.filter fun b => !(pindexTest :: younger).contains b }

/-- Every round drops a candidate, so there are at most as many rounds as candidates. -/
def findMostWorkLoop : ℕ → Node → Node × Option CBlockIndex
  | 0, n => (n, none)
  | k + 1, n =>
    match n.bestCandidate with
    | none => (n, none)
    | some pindexNew =>
      match (offChain n pindexNew).find? (unusable n) with
      | none => (n, some pindexNew)
      | some pindexTest =>
        findMostWorkLoop k
          (dropChain n pindexTest ((offChain n pindexNew).takeWhile (· ≠ pindexTest)))

def findMostWorkChain (n : Node) : Node × Option CBlockIndex :=
  findMostWorkLoop (n.setBlockIndexCandidates.length + 1) n

def pruneBlockIndexCandidates (n : Node) : Node :=
  { n with
    setBlockIndexCandidates := n.setBlockIndexCandidates.filter fun b =>
      !(match n.tip with
        | some t => n.workLess b t
        | none => false) }

/-! Moving the active chain. -/

/-- What `ConnectBlock` does with a block: it connects it, refuses it and says whether the
refusal may be due to corruption, fails without calling the block invalid, or never returns. -/
inductive Verdict
  | connected
  | invalid (corruptionPossible : Bool)
  | error
  | noReturn
  deriving DecidableEq, Repr

structure Blocks where
  connectBlock : CBlockIndex → Verdict
  disconnectBlock : CBlockIndex → Bool

inductive Status
  | ok
  | failed
  | noReturn
  deriving DecidableEq, Repr

/-- A node under activation, with the blocks that were disconnected so far. -/
structure Activation where
  node : Node
  disconnected : List CBlockIndex := []

def Activation.onNode (a : Activation) (f : Node → Node) : Activation := { a with node := f a.node }

/-- One pass of the disconnect loop for the tip and each of its ancestors down to the fork. -/
def disconnectLoop (orc : Blocks) (pindexFork : Option CBlockIndex) :
    CBlockIndex → Activation → Activation × Status
  | .root x, a =>
    if pindexFork = some (.root x) then (a, .ok)
    else if orc.disconnectBlock (.root x) then
      (⟨a.node.setTip none, .root x :: a.disconnected⟩, .ok)
    else (a, .failed)
  | .child p x, a =>
    if pindexFork = some (.child p x) then (a, .ok)
    else if orc.disconnectBlock (.child p x) then
      disconnectLoop orc pindexFork p ⟨a.node.setTip (some p), .child p x :: a.disconnected⟩
    else (a, .failed)

def invalidBlockFound (n : Node) (b : CBlockIndex) (corruptionPossible : Bool) : Node :=
  if corruptionPossible then n
  else (n.modifyEntry b fun e => { e with fFailedValid := true }).eraseCandidate b

/-- Connect blocks, the lowest first, until the chain has more work than `pindexOldTip`, a
block is refused, or none is left. The program takes them in batches of 32 heights. -/
def connectLoop (orc : Blocks) (pindexOldTip : Option CBlockIndex) :
    List CBlockIndex → Node → Node × Status
  | [], n => (n, .ok)
  | b :: rest, n =>
    match orc.connectBlock b with
    | .connected =>
      let n := pruneBlockIndexCandidates (n.setTip (some b))
      if pindexOldTip.all fun t => nChainWork t < nChainWork b then (n, .ok)
      else connectLoop orc pindexOldTip rest n
    | .invalid corruptionPossible => (invalidBlockFound n b corruptionPossible, .ok)
    | .error => (n, .failed)
    | .noReturn => (n, .noReturn)

/-- The blocks above the fork, the lowest first. -/
def toConnect (pindexFork : Option CBlockIndex) (pindexMostWork : CBlockIndex) :
    List CBlockIndex :=
  match pindexFork with
  | some f => pindexMostWork.branch.drop (f.height + 1)
  | none => pindexMostWork.branch

def activateBestChainStep (orc : Blocks) (pindexMostWork : CBlockIndex) (a : Activation) :
    Activation × Status :=
  let pindexOldTip := a.node.tip
  let pindexFork := a.node.chainActive.findFork pindexMostWork
  let (a, s) := match pindexOldTip with
    | some t => disconnectLoop orc pindexFork t a
    | none => (a, .ok)
  match s with
  | .ok =>
    let (n, s) := connectLoop orc pindexOldTip (toConnect pindexFork pindexMostWork) a.node
    ({ a with node := n }, s)
  | _ => (a, s)

/-- `none` when the rounds did not suffice. -/
def activateLoop (orc : Blocks) : ℕ → Activation → Activation × Option Status
  | 0, a => (a, none)
  | k + 1, a =>
    let (n, pindexMostWork) := findMostWorkChain a.node
    let a := { a with node := n }
    match pindexMostWork with
    | none => (a, some .ok)
    | some m =>
      if a.node.tip = some m then (a, some .ok)
      else
        match activateBestChainStep orc m a with
        | (a, .ok) => if a.node.tip = some m then (a, some .ok) else activateLoop orc k a
        | (a, s) => (a, some s)

def activateBestChain (orc : Blocks) (rounds : ℕ) (n : Node) : Activation × Option Status :=
  activateLoop orc rounds ⟨n, []⟩

/-! The order of the candidates. -/

namespace Node

theorem workLess_iff {n : Node} {a b : CBlockIndex} :
    n.workLess a b = true ↔ n.rank a < n.rank b := by
  simp only [workLess, rank, Prod.Lex.toLex_lt_toLex, OrderDual.toDual_lt_toDual,
    OrderDual.toDual_inj]
  split_ifs <;> simp <;> omega

@[simp] theorem tip_setTip (n : Node) (b : Option CBlockIndex) : (n.setTip b).tip = b := by
  cases b with
  | none => rfl
  | some b => exact CChain.tip_ofTip b

end Node

/-- What activation never undoes: candidates only leave, failures stay, data stays. -/
structure Shrinks (n n' : Node) : Prop where
  candidates : ∀ b ∈ n'.setBlockIndexCandidates, b ∈ n.setBlockIndexCandidates
  failed : ∀ b, (n.entry b).failed = true → (n'.entry b).failed = true
  data : ∀ b, (n'.entry b).fHaveData = (n.entry b).fHaveData

theorem Shrinks.refl (n : Node) : Shrinks n n := ⟨fun _ h => h, fun _ h => h, fun _ => rfl⟩

theorem Shrinks.trans {n n' n'' : Node} (h : Shrinks n n') (h' : Shrinks n' n'') :
    Shrinks n n'' where
  candidates b hb := h.candidates b (h'.candidates b hb)
  failed b hb := h'.failed b (h.failed b hb)
  data b := (h'.data b).trans (h.data b)

theorem Shrinks.usable {n n' : Node} (h : Shrinks n n') {b : CBlockIndex}
    (hb : unusable n' b = false) : unusable n b = false := by
  simp only [unusable, h.data b, Bool.or_eq_false_iff] at hb ⊢
  refine ⟨?_, hb.2⟩
  cases hf : (n.entry b).failed with
  | false => rfl
  | true => rw [h.failed b hf] at hb; exact hb.1

theorem shrinks_setTip (n : Node) (b : Option CBlockIndex) : Shrinks n (n.setTip b) :=
  ⟨fun _ h => h, fun _ h => h, fun _ => rfl⟩

theorem shrinks_prune (n : Node) : Shrinks n (pruneBlockIndexCandidates n) :=
  ⟨fun _ h => List.mem_of_mem_filter h, fun _ h => h, fun _ => rfl⟩

theorem shrinks_invalidBlockFound (n : Node) (b : CBlockIndex) (corruptionPossible : Bool) :
    Shrinks n (invalidBlockFound n b corruptionPossible) := by
  unfold invalidBlockFound
  split
  · exact Shrinks.refl n
  · refine ⟨fun _ h => List.mem_of_mem_filter h, fun x hx => ?_, fun x => ?_⟩
    · by_cases he : x = b
      · simp [Node.eraseCandidate, Node.modifyEntry, he, Entry.failed]
      · simpa [Node.eraseCandidate, Node.modifyEntry, he] using hx
    · by_cases he : x = b
      · simp [Node.eraseCandidate, Node.modifyEntry, he]
      · simp [Node.eraseCandidate, Node.modifyEntry, he]

theorem shrinks_dropChain (n : Node) (x : CBlockIndex) (younger : List CBlockIndex) :
    Shrinks n (dropChain n x younger) := by
  refine ⟨fun _ h => List.mem_of_mem_filter h, fun b hb => ?_, fun b => ?_⟩
  · simp only [dropChain]
    split
    · simp [Entry.failed]
    · exact hb
  · simp only [dropChain]
    split <;> rfl

/-- All blocks of `b` off the active chain have data and are not known to be invalid. -/
def UsablePath (n : Node) (b : CBlockIndex) : Prop :=
  ∀ x ≤ b, n.chainActive.contains x = true ∨ unusable n x = false

/-- The walk of a candidate down to the active chain meets just the blocks off that chain. -/
theorem mem_offChain {n : Node} {b x : CBlockIndex} :
    x ∈ offChain n b ↔ x ≤ b ∧ n.chainActive.contains x = false := by
  have hdown {y z : CBlockIndex} (hyz : y ≤ z) (hz : n.chainActive.contains z = true) :
      n.chainActive.contains y = true := by
    obtain ⟨t, ht, hzt⟩ := CChain.contains_iff.mp hz
    exact CChain.contains_iff.mpr ⟨t, ht, hyz.trans hzt⟩
  induction b with
  | root a =>
    by_cases hc : n.chainActive.contains (.root a) = true
    · simp only [offChain, Lineage.line, List.takeWhile, hc, Bool.not_true, List.not_mem_nil,
        Lineage.le_root, false_iff]
      rintro ⟨rfl, hx⟩
      simp [hc] at hx
    · simp only [offChain, Lineage.line, List.takeWhile, hc, Bool.not_false, List.mem_singleton,
        Lineage.le_root]
      exact ⟨fun h => ⟨h, by rw [h]; simpa using hc⟩, And.left⟩
  | child p a ih =>
    by_cases hc : n.chainActive.contains (.child p a) = true
    · simp only [offChain, Lineage.line, List.takeWhile, hc, Bool.not_true, List.not_mem_nil,
        false_iff]
      rintro ⟨hx, hx'⟩
      rw [hdown hx hc] at hx'
      cases hx'
    · have hc' : n.chainActive.contains (.child p a) = false := by simpa using hc
      simp only [offChain, Lineage.line, List.takeWhile, hc', Bool.not_false, List.mem_cons,
        Lineage.le_child]
      constructor
      · rintro (rfl | hx)
        · exact ⟨Or.inl rfl, hc'⟩
        · exact ⟨Or.inr (ih.mp hx).1, (ih.mp hx).2⟩
      · rintro ⟨rfl | hx, hx'⟩
        · exact Or.inl rfl
        · exact Or.inr (ih.mpr ⟨hx, hx'⟩)

theorem usablePath_of_find {n : Node} {b : CBlockIndex}
    (h : (offChain n b).find? (unusable n) = none) : UsablePath n b := by
  intro x hx
  cases hc : n.chainActive.contains x with
  | true => exact Or.inl rfl
  | false =>
    have := List.find?_eq_none.mp h x (mem_offChain.mpr ⟨hx, hc⟩)
    exact Or.inr (by simpa using this)

theorem find?_offChain {n : Node} {b : CBlockIndex} (h : ∀ x ≤ b, unusable n x = false) :
    (offChain n b).find? (unusable n) = none :=
  List.find?_eq_none.mpr fun x hx => by simp [h x (mem_offChain.mp hx).1]

/-- The best candidate is taken when its blocks are usable. -/
theorem findMostWorkChain_eq {n : Node} {b : CBlockIndex} (hb : n.bestCandidate = some b)
    (h : ∀ x ≤ b, unusable n x = false) : findMostWorkChain n = (n, some b) := by
  simp only [findMostWorkChain, findMostWorkLoop, hb, find?_offChain h]

/-- The loop leaves the active chain alone, and what it returns is a usable candidate. -/
theorem findMostWorkLoop_spec {k : ℕ} {n n' : Node} {r : Option CBlockIndex}
    (h : findMostWorkLoop k n = (n', r)) :
    n'.chainActive = n.chainActive ∧ Shrinks n n' ∧
      ∀ m, r = some m → m ∈ n'.setBlockIndexCandidates ∧ UsablePath n' m := by
  induction k generalizing n with
  | zero =>
    cases h
    exact ⟨rfl, Shrinks.refl _, nofun⟩
  | succ k ih =>
    simp only [findMostWorkLoop] at h
    split at h
    · cases h
      exact ⟨rfl, Shrinks.refl _, nofun⟩
    · next m hm =>
      split at h
      · next hfind =>
        cases h
        refine ⟨rfl, Shrinks.refl _, fun m' hm' => ?_⟩
        cases hm'
        exact ⟨List.argmax_mem hm, usablePath_of_find hfind⟩
      · next x hx =>
        obtain ⟨hchain, hshrinks, hr⟩ := ih h
        exact ⟨hchain, (shrinks_dropChain n x _).trans hshrinks, hr⟩

theorem setTip_tip {n : Node} {t : CBlockIndex} (ht : n.tip = some t) :
    n.setTip (some t) = n := by
  have hc := CChain.eq_setTip n.chainActive
  rw [show n.chainActive.tip = some t from ht] at hc
  rw [Node.setTip, ← hc]

/-- Blocks are taken off from the tip downwards, and none at or below the fork. -/
theorem disconnectLoop_spec {orc : Blocks} {f t : CBlockIndex} (hft : f ≤ t)
    {a a' : Activation} {s : Status} (ht : a.node.tip = some t)
    (h : disconnectLoop orc (some f) t a = (a', s)) :
    ∃ x, a'.node = a.node.setTip (some x) ∧ f ≤ x ∧ x ≤ t ∧ (s = .ok → x = f) ∧
      ∀ b ∈ a'.disconnected, b ∈ a.disconnected ∨ (f < b ∧ b ≤ t) := by
  induction t generalizing a with
  | root y =>
    obtain rfl := Lineage.le_root.mp hft
    rw [disconnectLoop, if_pos rfl] at h
    cases h
    exact ⟨.root y, (setTip_tip ht).symm, le_rfl, le_rfl, fun _ => rfl, fun b hb => Or.inl hb⟩
  | child p y ih =>
    rw [disconnectLoop] at h
    split at h
    · next hf =>
      cases hf
      cases h
      exact ⟨_, (setTip_tip ht).symm, le_rfl, le_rfl, fun _ => rfl, fun b hb => Or.inl hb⟩
    · next hf =>
      have hfp : f ≤ p := (Lineage.le_child.mp hft).resolve_left fun he => hf (by rw [he])
      split at h
      · obtain ⟨x, hnode, hfx, hxp, hok, hlog⟩ := ih hfp (Node.tip_setTip _ _) h
        refine ⟨x, hnode, hfx, hxp.trans (Lineage.parent_le p y), hok, fun b hb => ?_⟩
        rcases hlog b hb with hb | ⟨hfb, hbp⟩
        · rcases List.mem_cons.mp hb with rfl | hb
          · refine Or.inr ⟨lt_of_le_of_ne hft fun he => hf (by rw [he]), le_rfl⟩
          · exact Or.inl hb
        · exact Or.inr ⟨hfb, hbp.trans (Lineage.parent_le p y)⟩
      · cases h
        exact ⟨_, (setTip_tip ht).symm, hft, le_rfl, nofun, fun b hb => Or.inl hb⟩

/-- Disconnected blocks stay on the record. -/
theorem disconnectLoop_log {orc : Blocks} {f : Option CBlockIndex} {t : CBlockIndex}
    {a a' : Activation} {s : Status} (h : disconnectLoop orc f t a = (a', s)) :
    ∀ b ∈ a.disconnected, b ∈ a'.disconnected := by
  induction t generalizing a with
  | root y =>
    simp only [disconnectLoop] at h
    split at h
    · cases h
      exact fun b hb => hb
    · split at h <;> cases h
      · exact fun b hb => List.mem_cons_of_mem _ hb
      · exact fun b hb => hb
  | child p y ih =>
    simp only [disconnectLoop] at h
    split at h
    · cases h
      exact fun b hb => hb
    · split at h
      · exact fun b hb => ih h b (List.mem_cons_of_mem _ hb)
      · cases h
        exact fun b hb => hb

/-- When no block resists, everything above the fork is taken off. -/
theorem disconnectLoop_all {orc : Blocks} (horc : ∀ b, orc.disconnectBlock b = true)
    {f t : CBlockIndex} (hft : f ≤ t) (a : Activation) :
    ∃ a', disconnectLoop orc (some f) t a = (a', .ok) ∧
      ∀ b, f < b → b ≤ t → b ∈ a'.disconnected := by
  induction t generalizing a with
  | root y =>
    obtain rfl := Lineage.le_root.mp hft
    refine ⟨a, by rw [disconnectLoop, if_pos rfl], fun b hfb hbt => ?_⟩
    rw [Lineage.le_root.mp hbt] at hfb
    exact absurd hfb (lt_irrefl _)
  | child p y ih =>
    by_cases hf : f = .child p y
    · refine ⟨a, by rw [disconnectLoop, if_pos (by rw [hf])], fun b hfb hbt => ?_⟩
      rw [hf] at hfb
      exact absurd (lt_of_lt_of_le hfb hbt) (lt_irrefl _)
    · have hfp : f ≤ p := (Lineage.le_child.mp hft).resolve_left hf
      obtain ⟨a', ha', hall⟩ :=
        ih hfp ⟨a.node.setTip (some p), .child p y :: a.disconnected⟩
      refine ⟨a', ?_, fun b hfb hbt => ?_⟩
      · rw [disconnectLoop, if_neg fun he => hf (Option.some.inj he), if_pos (horc _)]
        exact ha'
      · rcases Lineage.le_child.mp hbt with rfl | hbp
        · exact disconnectLoop_log ha' _ List.mem_cons_self
        · exact hall b hfb hbp

theorem activateBestChainStep_log {orc : Blocks} {m : CBlockIndex} {a a' : Activation}
    {s : Status} (h : activateBestChainStep orc m a = (a', s)) :
    ∀ b ∈ a.disconnected, b ∈ a'.disconnected := by
  simp only [activateBestChainStep] at h
  generalize hd : (match a.node.tip with
    | some t => disconnectLoop orc (a.node.chainActive.findFork m) t a
    | none => (a, Status.ok)) = d at h
  obtain ⟨d, ds⟩ := d
  have hlog : ∀ b ∈ a.disconnected, b ∈ d.disconnected := by
    split at hd
    · exact disconnectLoop_log hd
    · cases hd
      exact fun b hb => hb
  cases ds <;> cases h <;> exact hlog

theorem activateLoop_log {orc : Blocks} {k : ℕ} {a a' : Activation} {s : Option Status}
    (h : activateLoop orc k a = (a', s)) : ∀ b ∈ a.disconnected, b ∈ a'.disconnected := by
  induction k generalizing a with
  | zero =>
    cases h
    exact fun b hb => hb
  | succ k ih =>
    simp only [activateLoop] at h
    generalize findMostWorkChain a.node = r at h
    obtain ⟨n, m⟩ := r
    cases m with
    | none =>
      cases h
      exact fun b hb => hb
    | some m =>
      simp only at h
      split at h
      · cases h
        exact fun b hb => hb
      · generalize hstep : activateBestChainStep orc m { a with node := n } = e at h
        obtain ⟨a₂, s₂⟩ := e
        have hlog := activateBestChainStep_log hstep
        cases s₂ with
        | ok =>
          simp only at h
          split at h
          · cases h
            exact hlog
          · exact fun b hb => ih h b (hlog b hb)
        | failed =>
          cases h
          exact hlog
        | noReturn =>
          cases h
          exact hlog

/-- Connecting moves the tip to one of the blocks, or leaves it. -/
theorem connectLoop_spec {orc : Blocks} {old : Option CBlockIndex} {l : List CBlockIndex}
    {n n' : Node} {s : Status} (h : connectLoop orc old l n = (n', s)) :
    Shrinks n n' ∧ (n'.tip = n.tip ∨ ∃ b ∈ l, n'.tip = some b) := by
  induction l generalizing n with
  | nil =>
    cases h
    exact ⟨Shrinks.refl _, Or.inl rfl⟩
  | cons b rest ih =>
    simp only [connectLoop] at h
    split at h
    · have hshrinks := (shrinks_setTip n (some b)).trans (shrinks_prune _)
      have htip : (pruneBlockIndexCandidates (n.setTip (some b))).tip = some b :=
        Node.tip_setTip n (some b)
      split at h
      · cases h
        exact ⟨hshrinks, Or.inr ⟨b, List.mem_cons_self, htip⟩⟩
      · obtain ⟨hrest, hor⟩ := ih h
        refine ⟨hshrinks.trans hrest, Or.inr ?_⟩
        rcases hor with heq | ⟨c, hc, htc⟩
        · exact ⟨b, List.mem_cons_self, heq.trans htip⟩
        · exact ⟨c, List.mem_cons_of_mem _ hc, htc⟩
    · cases h
      refine ⟨shrinks_invalidBlockFound n b _, Or.inl ?_⟩
      unfold invalidBlockFound
      split <;> rfl
    · cases h
      exact ⟨Shrinks.refl _, Or.inl rfl⟩
    · cases h
      exact ⟨Shrinks.refl _, Or.inl rfl⟩

theorem mem_toConnect {f m b : CBlockIndex} (hfm : f ≤ m) :
    b ∈ toConnect (some f) m ↔ f < b ∧ b ≤ m := by
  simp only [toConnect, List.mem_iff_getElem?, List.getElem?_drop, Lineage.getElem?_branch]
  constructor
  · rintro ⟨k, hbm, hh⟩
    refine ⟨lt_of_le_of_ne (Lineage.le_of_height_le hfm hbm (by omega)) fun he => ?_, hbm⟩
    rw [he] at hh
    omega
  · rintro ⟨hfb, hbm⟩
    have := Lineage.height_lt hfb
    exact ⟨b.height - (f.height + 1), hbm, by omega⟩

end Scrypta.Chainstate
