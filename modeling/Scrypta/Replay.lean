import Mathlib.Logic.Function.Iterate
import Mathlib.Order.Lattice
import Scrypta.Conservation

/-! The replay of the last blocks. `DisconnectBlocksAndReprocess` calls `DisconnectTip` again and
again and does not look at what it returns. -/

namespace Scrypta.Supply

open CCoinsViewCache Validation Runs

section Replay

variable (fmt : Undo.Codec) (blockOf : CBlockIndex → CBlock)

/-- The loop runs as long as `i <= blocks`. -/
def disconnectBlocksAndReprocess (s : Node) (blocks : ℤ) : Node :=
  (disconnectTip fmt blockOf)^[(blocks + 1).toNat] s

/-- The block at the tip disconnects cleanly, which leaves `s'`. -/
def UndoesTip (s s' : Node) : Prop :=
  ∃ pprev view, s.tip.parent? = some pprev ∧
    disconnectBlock (blockOf s.tip) (s.readUndo fmt s.tip pprev) s.tip s.pcoinsTip =
      .ok (view, true) ∧
    s' = { s with pcoinsTip := view, tip := pprev }

/-- The last `n` blocks disconnect cleanly one after the other. -/
inductive Undone : ℕ → Node → Node → Prop
  | none (s : Node) : Undone 0 s s
  | block {n : ℕ} {s s' s'' : Node} (htip : UndoesTip fmt blockOf s s') (h : Undone n s' s'') :
    Undone (n + 1) s s''

/-- All blocks of the active chain disconnect cleanly, down to the genesis block. -/
def DisconnectsCleanly (s : Node) : Prop := ∃ s', Undone fmt blockOf s.tip.height s s'

/-- The last `n` blocks are disconnected, or all but the genesis block where there are fewer. -/
structure Replayed (n : ℕ) (s s' : Node) : Prop where
  height : (s'.tip.height : ℤ) = max 0 ((s.tip.height : ℤ) - n)
  undone : Undone fmt blockOf (min n s.tip.height) s s'

variable {fmt blockOf} {n : ℕ} {s s' : Node}

theorem UndoesTip.height (h : UndoesTip fmt blockOf s s') : s.tip.height = s'.tip.height + 1 := by
  obtain ⟨pprev, view, hparent, -, rfl⟩ := h
  cases htip : s.tip with
  | root a =>
    rw [htip] at hparent
    cases hparent
  | child p a =>
    rw [htip] at hparent
    obtain rfl : p = pprev := Option.some.inj hparent
    rfl

theorem UndoesTip.disconnectTip (h : UndoesTip fmt blockOf s s') :
    disconnectTip fmt blockOf s = s' := by
  obtain ⟨pprev, view, hparent, hblock, rfl⟩ := h
  unfold Supply.disconnectTip
  rw [hparent]
  dsimp only
  rw [hblock]

/-- A call that moves the tip has undone the block. -/
theorem undoesTip_of_ne (h : (disconnectTip fmt blockOf s).tip ≠ s.tip) :
    UndoesTip fmt blockOf s (disconnectTip fmt blockOf s) := by
  unfold Supply.disconnectTip at h ⊢
  cases hparent : s.tip.parent? with
  | none =>
    rw [hparent] at h
    exact absurd rfl h
  | some pprev =>
    rw [hparent] at h
    dsimp only at h ⊢
    split at h
    · next view hblock => exact ⟨pprev, view, hparent, hblock, rfl⟩
    · exact absurd rfl h

/-- The genesis block has no undo data, so that the call fails. -/
theorem disconnectTip_genesis (h : s.tip.height = 0) : disconnectTip fmt blockOf s = s := by
  unfold Supply.disconnectTip
  cases htip : s.tip with
  | root a => rfl
  | child p a =>
    rw [htip] at h
    cases h

theorem Undone.height (h : Undone fmt blockOf n s s') : s.tip.height = s'.tip.height + n := by
  induction h with
  | none s => rfl
  | block htip _ ih => rw [htip.height, ih, Nat.add_assoc]

/-- Each call undoes one block, until the genesis block is reached. -/
theorem undone_iterate {m : ℕ} (h : Undone fmt blockOf m s s') (hgenesis : s'.tip.height = 0)
    (k : ℕ) : Undone fmt blockOf (min k m) s ((disconnectTip fmt blockOf)^[k] s) := by
  induction h generalizing k with
  | none s =>
    rw [Nat.min_zero, Function.iterate_fixed (disconnectTip_genesis hgenesis)]
    exact .none s
  | @block m s s' s'' htip _ ih =>
    cases k with
    | zero =>
      rw [Nat.zero_min]
      exact .none s
    | succ k =>
      rw [Function.iterate_succ_apply, htip.disconnectTip, Nat.succ_min_succ]
      exact .block htip (ih hgenesis k)

/-- The loop undoes one block more than it is told to. -/
theorem undone_replay (h : DisconnectsCleanly fmt blockOf s) (n : ℕ) :
    Undone fmt blockOf (min (n + 1) s.tip.height) s
      (disconnectBlocksAndReprocess fmt blockOf s n) := by
  obtain ⟨s', hundone⟩ := h
  have hheight := hundone.height
  exact undone_iterate hundone (by omega) (n + 1)

/-- `n` blocks are replayed exactly where the chain has no more than `n` above genesis. -/
theorem replayed_iff (fmt : Undo.Codec) (blockOf : CBlockIndex → CBlock) (s : Node) (n : ℕ)
    (h : DisconnectsCleanly fmt blockOf s) :
    Replayed fmt blockOf n s (disconnectBlocksAndReprocess fmt blockOf s n) ↔
      s.tip.height ≤ n := by
  have hundone := undone_replay h n
  have hheight := hundone.height
  constructor
  · intro hreplayed
    have hexpected := hreplayed.height
    omega
  · intro hle
    rw [min_eq_right (by omega)] at hundone
    exact ⟨by omega, by rwa [min_eq_right hle]⟩

end Replay

section Runs

/-- A chain of two blocks above genesis. -/
def twoBlocks : Node :=
  run (step mainParams bareCodec growthBlock) (start (plainChain 0).label) (growth 2)

theorem twoBlocks_clean : DisconnectsCleanly bareCodec growthBlock twoBlocks := by
  have hheight : twoBlocks.tip.height = 2 := by decide
  have hsecond : UndoesTip bareCodec growthBlock twoBlocks _ :=
    undoesTip_of_ne (by decide)
  have hfirst : UndoesTip bareCodec growthBlock (disconnectTip bareCodec growthBlock twoBlocks) _ :=
    undoesTip_of_ne (by decide)
  unfold DisconnectsCleanly
  rw [hheight]
  exact ⟨_, .block hsecond (.block hfirst (.none _))⟩

/-- Told to replay one block of the two, the node goes back to the genesis block. -/
theorem one_block_too_many :
    DisconnectsCleanly bareCodec growthBlock twoBlocks ∧
      twoBlocks.tip.height = 2 ∧
      (disconnectBlocksAndReprocess bareCodec growthBlock twoBlocks 1).tip.height = 0 ∧
      ¬Replayed bareCodec growthBlock 1 twoBlocks
        (disconnectBlocksAndReprocess bareCodec growthBlock twoBlocks 1) := by
  have hheight : twoBlocks.tip.height = 2 := by decide
  have hafter :
      (disconnectBlocksAndReprocess bareCodec growthBlock twoBlocks 1).tip.height = 0 := by
    decide
  refine ⟨twoBlocks_clean, hheight, hafter, fun hreplayed => ?_⟩
  have hexpected := hreplayed.height
  rw [hheight, hafter] at hexpected
  exact absurd hexpected (by decide)

theorem replayed_sample :
    Replayed bareCodec growthBlock 2 twoBlocks
      (disconnectBlocksAndReprocess bareCodec growthBlock twoBlocks 2) :=
  (replayed_iff bareCodec growthBlock twoBlocks 2 twoBlocks_clean).2 (by decide)

end Runs

end Scrypta.Supply
