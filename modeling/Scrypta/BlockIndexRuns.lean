import Scrypta.BlockIndexRules
import Scrypta.Toolkit.Runs

/-! The rules of the block index survive every event: what each kind of assignment keeps, then
what each function of the node keeps, then whole runs. -/

namespace Scrypta.BlockIndex

open Validation (CDiskBlockIndex blockHaveData blockHaveUndo blockFailedMask blockValidMask
  blockValidScripts)

namespace Entry

variable {e : Entry}

/-- The members that say where an entry stands in the chain of received blocks. -/
def core (e : Entry) : Entry :=
  { e.fixed with
    nTx := e.nTx
    nChainTx := e.nChainTx
    nStatus := if e.hasData then blockHaveData else 0 }

theorem fixed_core (e : Entry) : e.core.fixed = e.fixed := rfl

theorem hasData_core (e : Entry) : e.core.hasData = e.hasData := by
  change decide ((if e.hasData then blockHaveData else 0) &&& blockHaveData ≠ 0) = e.hasData
  cases e.hasData <;> rfl

theorem of_core {e' : Entry} (h : e'.core = e.core) :
    e'.pprev = e.pprev ∧ e'.hasData = e.hasData ∧ e'.nTx = e.nTx ∧ e'.nChainTx = e.nChainTx := by
  have hpprev := congrArg Entry.pprev h
  have htx := congrArg (fun e : Entry => e.nTx) h
  have hchain := congrArg Entry.nChainTx h
  refine ⟨hpprev, ?_, htx, hchain⟩
  rw [← hasData_core e', h, hasData_core]

theorem hasData_congr {e' : Entry} (h : e'.nStatus.testBit 3 = e.nStatus.testBit 3) :
    e'.hasData = e.hasData := by
  rw [hasData_eq, hasData_eq, h]

theorem core_addStatus {i : ℕ} (hi : i ≠ 3) : (e.addStatus (2 ^ i)).core = e.core := by
  have hdata : (e.addStatus (2 ^ i)).hasData = e.hasData :=
    hasData_congr (by rw [testBit_addStatus]; simp [hi])
  rw [core, core, hdata]
  rfl

theorem hasData_raiseValidity {nUpTo : ℕ} (hk : nUpTo < 8) :
    (e.raiseValidity nUpTo).hasData = e.hasData :=
  hasData_congr (testBit_raiseValidity hk (by decide))

theorem failed_raiseValidity {nUpTo : ℕ} (hk : nUpTo < 8) :
    (e.raiseValidity nUpTo).failed = e.failed := by
  rw [failed_eq, failed_eq, failedValid, failedValid, testBit_raiseValidity hk (by decide),
    testBit_raiseValidity hk (by decide)]

theorem core_raiseValidity {nUpTo : ℕ} (hk : nUpTo < 8) :
    (e.raiseValidity nUpTo).core = e.core := by
  rw [core, core, hasData_raiseValidity hk, raiseValidity_eq]
  rfl

theorem failed_addStatus (i : ℕ) (h : e.failed = true) : (e.addStatus (2 ^ i)).failed = true := by
  rw [failed_eq, failedValid] at h ⊢
  rw [testBit_addStatus, testBit_addStatus]
  revert h
  cases e.nStatus.testBit 5 <;> cases e.nStatus.testBit 6 <;> simp

/-! Each kind of assignment leaves the entry well formed. -/

theorem hasUndo_congr {e' : Entry} (h : e'.nStatus.testBit 4 = e.nStatus.testBit 4) :
    e'.hasUndo = e.hasUndo := by
  rw [hasUndo_eq, hasUndo_eq, h]

theorem isProofOfStake_eq : e.isProofOfStake = e.nFlags.testBit 0 := by
  rw [isProofOfStake, Bool.eq_iff_iff, decide_eq_true_iff]
  exact and_pow_ne_zero _ 0

theorem isProofOfStake_setProofOfStake (e : Entry) : e.setProofOfStake.isProofOfStake = true := by
  rw [isProofOfStake_eq, setProofOfStake, Nat.testBit_or]
  simp

theorem Ok.addStatus (h : e.Ok) {i : ℕ} (hi : 5 ≤ i) : (e.addStatus (2 ^ i)).Ok := by
  have hlevel : (e.addStatus (2 ^ i)).level = e.level := level_addStatus (by omega)
  have hdata : (e.addStatus (2 ^ i)).hasData = e.hasData :=
    hasData_congr (by rw [testBit_addStatus]; simp [show i ≠ 3 by omega])
  have hundo : (e.addStatus (2 ^ i)).hasUndo = e.hasUndo :=
    hasUndo_congr (by rw [testBit_addStatus]; simp [show i ≠ 4 by omega])
  constructor
  · exact hlevel ▸ h.tree
  · rw [hdata, hlevel]
    exact h.data
  · rw [hdata]
    exact h.txs
  · rw [hdata]
    exact h.dataPos
  · rw [hdata, hundo]
    exact h.file
  · rw [hundo]
    exact h.undoPos
  · exact h.stake

theorem Ok.of_hasData (hdata : e.hasData = true) (hlevel : blockValidTransactions ≤ e.level)
    (htx : e.nTx ≠ 0) (hundo : e.hasUndo = false → e.nUndoPos = 0)
    (hstake : e.isProofOfStake = false → e.prevoutStake = COutPoint.null ∧ e.nStakeTime = 0) :
    e.Ok where
  tree := (show blockValidTree ≤ blockValidTransactions by decide).trans hlevel
  data := iff_of_true hdata hlevel
  txs := iff_of_true hdata htx
  dataPos hno := absurd hdata (by simp [hno])
  file hno := absurd hdata (by simp [hno])
  undoPos := hundo
  stake := hstake

theorem received_eq (block : CBlock) (pos : DiskPos) : e.received block pos =
    (({ (if block.isProofOfStake then e.setProofOfStake else e) with
      nTx := block.vtx.length, nChainTx := 0, nFile := pos.nFile, nDataPos := pos.nPos,
      nUndoPos := 0 } : Entry).addStatus (2 ^ 3)).raiseValidity blockValidTransactions := rfl

theorem testBit_received (block : CBlock) (pos : DiskPos) {i : ℕ} (hi : 3 ≤ i) :
    (e.received block pos).nStatus.testBit i = (e.nStatus.testBit i || decide (3 = i)) := by
  rw [received_eq, testBit_raiseValidity (by decide) hi, testBit_addStatus]
  split_ifs <;> rfl

theorem hasData_received (block : CBlock) (pos : DiskPos) :
    (e.received block pos).hasData = true := by
  rw [hasData_eq, testBit_received block pos le_rfl]
  simp

theorem failed_received (block : CBlock) (pos : DiskPos) :
    (e.received block pos).failed = e.failed := by
  rw [failed_eq, failed_eq, failedValid, failedValid, testBit_received block pos (by decide),
    testBit_received block pos (by decide)]
  simp

theorem fixed_received (block : CBlock) (pos : DiskPos) :
    (e.received block pos).fixed = e.fixed := by
  rw [received_eq, fixed_raiseValidity]
  split_ifs <;> rfl

theorem Ok.received (h : e.Ok) (hfailed : e.failed = false) {block : CBlock}
    (hvtx : block.vtx ≠ []) (pos : DiskPos) : (e.received block pos).Ok := by
  have hstake : (e.received block pos).isProofOfStake = false →
      (e.received block pos).prevoutStake = COutPoint.null ∧
        (e.received block pos).nStakeTime = 0 := by
    rw [received_eq, raiseValidity_eq]
    split_ifs with hpos
    · intro hno
      cases (isProofOfStake_setProofOfStake e).symm.trans hno
    · exact h.stake
  refine .of_hasData (hasData_received block pos) ?_ ?_ ?_ hstake
  · have hclear := failed_received (e := e) block pos
    rw [received_eq, failed_raiseValidity (by decide)] at hclear
    rw [received_eq, level_raiseValidity (by decide) (hclear.trans hfailed)]
    exact le_max_right _ _
  · rw [received_eq, raiseValidity_eq]
    exact fun hnil => hvtx (List.length_eq_zero_iff.mp hnil)
  · intro _
    rw [received_eq, raiseValidity_eq]
    rfl

theorem connected_cases (nUndoPos : ℕ) :
    (e.hasUndo = true ∧ e.connected nUndoPos = e.raiseValidity blockValidScripts) ∨
      (e.hasUndo = false ∧ e.connected nUndoPos =
        (({ e with nUndoPos := nUndoPos } : Entry).addStatus (2 ^ 4)).raiseValidity
          blockValidScripts) := by
  cases h : e.hasUndo with
  | true => exact .inl ⟨rfl, by rw [connected, if_pos h]⟩
  | false => exact .inr ⟨rfl, by rw [connected, if_neg (by simp [h])]; rfl⟩

theorem testBit_connected (nUndoPos : ℕ) {i : ℕ} (hi : 3 ≤ i) (h4 : i ≠ 4) :
    (e.connected nUndoPos).nStatus.testBit i = e.nStatus.testBit i := by
  rcases connected_cases (e := e) nUndoPos with ⟨-, heq⟩ | ⟨-, heq⟩
  · rw [heq, testBit_raiseValidity (by decide) hi]
  · rw [heq, testBit_raiseValidity (by decide) hi, testBit_addStatus]
    simp [h4.symm]

theorem failed_connected (nUndoPos : ℕ) : (e.connected nUndoPos).failed = e.failed := by
  rw [failed_eq, failed_eq, failedValid, failedValid,
    testBit_connected nUndoPos (by decide) (by decide),
    testBit_connected nUndoPos (by decide) (by decide)]

theorem core_connected (nUndoPos : ℕ) : (e.connected nUndoPos).core = e.core := by
  rcases connected_cases (e := e) nUndoPos with ⟨-, heq⟩ | ⟨-, heq⟩
  · rw [heq, core_raiseValidity (by decide)]
  · rw [heq, core_raiseValidity (by decide), core_addStatus (by decide)]
    rfl

theorem Ok.connected (h : e.Ok) (hdata : e.hasData = true) (nUndoPos : ℕ) :
    (e.connected nUndoPos).Ok := by
  have hdata' : (e.connected nUndoPos).hasData = true :=
    (hasData_congr (testBit_connected nUndoPos (by decide) (by decide))).trans hdata
  rcases connected_cases (e := e) nUndoPos with ⟨hundo, heq⟩ | ⟨-, heq⟩
  · have hundo' : (e.connected nUndoPos).hasUndo = true := by
      rw [heq, hasUndo_eq, testBit_raiseValidity (by decide) (by decide), ← hasUndo_eq, hundo]
    refine .of_hasData hdata' ?_ ?_ (fun hno => absurd hundo' (by simp [hno])) ?_
    · rw [heq]
      exact (h.data.mp hdata).trans (level_le_raiseValidity (by decide))
    · rw [heq, raiseValidity_eq]
      exact h.txs.mp hdata
    · rw [heq, raiseValidity_eq]
      exact h.stake
  · have hundo' : (e.connected nUndoPos).hasUndo = true := by
      rw [heq, hasUndo_eq, testBit_raiseValidity (by decide) (by decide), testBit_addStatus]
      simp
    refine .of_hasData hdata' ?_ ?_ (fun hno => absurd hundo' (by simp [hno])) ?_
    · rw [heq]
      refine le_trans ?_ (level_le_raiseValidity (by decide))
      rw [level_addStatus (by decide)]
      exact h.data.mp hdata
    · rw [heq, raiseValidity_eq]
      exact h.txs.mp hdata
    · rw [heq, raiseValidity_eq]
      exact h.stake

/-- An entry of which only the header is known. -/
structure Fresh (e : Entry) : Prop where
  status : e.nStatus = blockValidTree
  nTx : e.nTx = 0
  nFile : e.nFile = 0
  nDataPos : e.nDataPos = 0
  nUndoPos : e.nUndoPos = 0
  nChainTx : e.nChainTx = 0
  stake : e.isProofOfStake = false → e.prevoutStake = COutPoint.null ∧ e.nStakeTime = 0

theorem Fresh.hasData (h : e.Fresh) : e.hasData = false := by
  rw [hasData_eq, h.status]
  rfl

theorem Fresh.failed (h : e.Fresh) : e.failed = false := by
  rw [failed_eq, failedValid, h.status]
  rfl

theorem Fresh.ok (h : e.Fresh) : e.Ok where
  tree := by
    rw [level, h.status]
    decide
  data := by
    rw [h.hasData, level, h.status]
    decide
  txs := by
    rw [h.hasData, h.nTx]
    decide
  dataPos _ := h.nDataPos
  file _ _ := h.nFile
  undoPos _ := h.nUndoPos
  stake := h.stake

theorem raiseValidity_of_zero (h : e.nStatus = 0) {nUpTo : ℕ} (hk : 0 < nUpTo) :
    e.raiseValidity nUpTo = { e with nStatus := nUpTo } := by
  rw [raiseValidity, if_neg (by simp [Entry.failed, h]), h, if_pos (by simpa using hk)]
  simp

theorem stake_entryOf (block : CBlock) (h : (entryOf block).isProofOfStake = false) :
    (entryOf block).prevoutStake = COutPoint.null ∧ (entryOf block).nStakeTime = 0 := by
  have hpos : block.isProofOfStake = false := by
    cases hpos : block.isProofOfStake with
    | true => simp [isProofOfStake, entryOf, hpos] at h
    | false => rfl
  simp [entryOf, hpos]

theorem fresh_newEntry (par : Params) (proc : Process) (m : BlockMap) (block : CBlock)
    (hashProofOfStake : Uint256) : (newEntry par proc m block hashProofOfStake).Fresh := by
  unfold newEntry
  cases m.find block.hashPrevBlock with
  | none =>
    dsimp only
    rw [raiseValidity_of_zero rfl (by decide)]
    exact ⟨rfl, rfl, rfl, rfl, rfl, rfl, stake_entryOf block⟩
  | some ep =>
    dsimp only
    rw [raiseValidity_of_zero rfl (by decide)]
    refine ⟨rfl, rfl, rfl, rfl, rfl, rfl, fun hno => stake_entryOf block ?_⟩
    rw [isProofOfStake_eq] at hno ⊢
    simp only [linkEntry, Nat.testBit_or, Bool.or_eq_false_iff] at hno
    exact hno.1.1

end Entry

/-! The chain of received blocks: the sums of transactions and the blocks that wait. -/

/-- Up to what says nothing of the chain of received blocks, the maps have the same entries. -/
def SameCore (m m' : BlockMap) : Prop :=
  ∀ hash, (m'.find hash).map Entry.core = (m.find hash).map Entry.core

/-- No failure is forgotten. -/
def Failing (m m' : BlockMap) : Prop :=
  ∀ hash e e', m.find hash = some e → m'.find hash = some e' → e.failed = true → e'.failed = true

section Core

variable {m m' : BlockMap} {hash : Uint256}

theorem SameCore.sameTree (h : SameCore m m') : SameTree m m' := by
  intro hash
  have hmap := congrArg (Option.map Entry.fixed) (h hash)
  simpa only [Option.map_map, Function.comp_def, Entry.fixed_core] using hmap

theorem SameCore.of_modify {f : Entry → Entry} (m : BlockMap) (hash : Uint256)
    (hf : ∀ e, m.find hash = some e → (f e).core = e.core) : SameCore m (m.modify hash f) := by
  intro x
  rw [Dict.find_modify]
  split_ifs with hx
  · rw [hx]
    cases he : m.find hash with
    | none => rfl
    | some e => exact congrArg some (hf e he)
  · rfl

theorem SameTree.of_modify {f : Entry → Entry} (m : BlockMap) (hash : Uint256)
    (hf : ∀ e, m.find hash = some e → (f e).fixed = e.fixed) :
    SameTree m (m.modify hash f) := by
  intro x
  rw [Dict.find_modify]
  split_ifs with hx
  · rw [hx]
    cases he : m.find hash with
    | none => rfl
    | some e => exact congrArg some (hf e he)
  · rfl

theorem Failing.of_modify {f : Entry → Entry} (m : BlockMap) (hash : Uint256)
    (hf : ∀ e, m.find hash = some e → e.failed = true → (f e).failed = true) :
    Failing m (m.modify hash f) := by
  intro x e e' he he' hfailed
  rcases Dict.find_modify_cases he' with ⟨rfl, v, hv, rfl⟩ | ⟨-, hx⟩
  · cases he.symm.trans hv
    exact hf e he hfailed
  · cases he.symm.trans hx
    exact hfailed

theorem SameCore.exists_of_find (h : SameCore m m') {e : Entry} (he : m'.find hash = some e) :
    ∃ e₀, m.find hash = some e₀ ∧ e₀.core = e.core := by
  have hmap := h hash
  rw [he, Option.map_some] at hmap
  exact Option.map_eq_some_iff.mp hmap.symm

theorem nChainTxBelow_congr
    (h : ∀ p, (m'.find p).map Entry.nChainTx = (m.find p).map Entry.nChainTx) {e e' : Entry}
    (he : e'.pprev = e.pprev) : nChainTxBelow m' e' = nChainTxBelow m e := by
  rw [nChainTxBelow, nChainTxBelow, he]
  cases e.pprev with
  | none => rfl
  | some p =>
    have hmap := congrArg (Option.getD · 0) (h p)
    dsimp only [Option.bind_some] at hmap ⊢
    revert hmap
    cases m'.find p <;> cases m.find p <;> exact id

/-- The sum of transactions that an entry should have. -/
def numbered (m : BlockMap) (e : Entry) : ℕ :=
  if e.hasData then
    if e.pprev.isNone then e.nTx
    else if nChainTxBelow m e ≠ 0 then nChainTxBelow m e + e.nTx
    else 0
  else 0

/-- The blocks of `pending` are still to be numbered. -/
structure Linked (pending : List Uint256) (m : BlockMap) (unlinked : List (Uint256 × Uint256)) :
    Prop where
  rule : ∀ hash e, m.find hash = some e → hash ∉ pending → e.nChainTx = numbered m e
  waiting : ∀ hash e p ep, m.find hash = some e → e.pprev = some p → m.find p = some ep →
    e.hasData = true → ep.nChainTx = 0 → ep.failed = false → (p, hash) ∈ unlinked
  genuine : ∀ p hash, (p, hash) ∈ unlinked →
    ∃ e, m.find hash = some e ∧ e.pprev = some p ∧ e.hasData = true
  ready : ∀ hash ∈ pending, ∃ e, m.find hash = some e ∧ e.hasData = true ∧
    (e.pprev = none ∨ nChainTxBelow m e ≠ 0) ∧
    (e.nChainTx = 0 ∨ e.nChainTx = nChainTxBelow m e + e.nTx)
  failed : ∀ hash e, m.find hash = some e → e.failed = true → e.hasData = true → e.nChainTx ≠ 0

theorem numbered_congr {e e' : Entry} (hcore : e'.core = e.core)
    (hbelow : nChainTxBelow m' e' = nChainTxBelow m e) : numbered m' e' = numbered m e := by
  obtain ⟨hpprev, hdata, htx, -⟩ := Entry.of_core hcore
  rw [numbered, numbered, hdata, hpprev, htx, hbelow]

end Core

section Linked

variable {par : Params} {m m' : BlockMap} {hash : Uint256} {e : Entry}
  {pending queue : List Uint256} {unlinked : List (Uint256 × Uint256)}

theorem SameCore.nChainTx_eq (h : SameCore m m') (p : Uint256) :
    (m'.find p).map Entry.nChainTx = (m.find p).map Entry.nChainTx := by
  have hmap := congrArg (Option.map Entry.nChainTx) (h p)
  rwa [Option.map_map, Option.map_map] at hmap

theorem Linked.congr (h : Linked pending m unlinked) (hs : SameCore m m') (hfail : Failing m m')
    (hfailed : ∀ hash e, m'.find hash = some e → e.failed = true → e.hasData = true →
      e.nChainTx ≠ 0) : Linked pending m' unlinked where
  rule hash e he hpending := by
    obtain ⟨e₀, he₀, hcore⟩ := hs.exists_of_find he
    rw [← numbered_congr hcore (nChainTxBelow_congr (fun p => (hs.nChainTx_eq p).symm)
      (Entry.of_core hcore).1), ← (Entry.of_core hcore).2.2.2]
    exact h.rule hash e₀ he₀ hpending
  waiting hash e p ep he hp hep hdata hzero hclear := by
    obtain ⟨e₀, he₀, hcore⟩ := hs.exists_of_find he
    obtain ⟨ep₀, hep₀, hcore'⟩ := hs.exists_of_find hep
    obtain ⟨hpprev, hdata', -, -⟩ := Entry.of_core hcore
    refine h.waiting hash e₀ p ep₀ he₀ (hpprev.trans hp) hep₀ (hdata'.trans hdata)
      ((Entry.of_core hcore').2.2.2.trans hzero) ?_
    cases hfailed₀ : ep₀.failed with
    | false => rfl
    | true => cases hclear.symm.trans (hfail p ep₀ ep hep₀ hep hfailed₀)
  genuine p hash hmem := by
    obtain ⟨e₀, he₀, hp, hdata⟩ := h.genuine p hash hmem
    have hmap := hs hash
    rw [he₀, Option.map_some] at hmap
    obtain ⟨e, he, hcore⟩ := Option.map_eq_some_iff.mp hmap
    obtain ⟨hpprev, hdata', -, -⟩ := Entry.of_core hcore
    exact ⟨e, he, hpprev.trans hp, hdata'.trans hdata⟩
  ready hash hmem := by
    obtain ⟨e₀, he₀, hdata, hbelow, htx⟩ := h.ready hash hmem
    have hmap := hs hash
    rw [he₀, Option.map_some] at hmap
    obtain ⟨e, he, hcore⟩ := Option.map_eq_some_iff.mp hmap
    obtain ⟨hpprev, hdata', htx', hchain⟩ := Entry.of_core hcore
    have heq : nChainTxBelow m' e = nChainTxBelow m e₀ :=
      nChainTxBelow_congr hs.nChainTx_eq hpprev
    refine ⟨e, he, hdata'.trans hdata, ?_, ?_⟩
    · rwa [hpprev, heq]
    · rwa [hchain, heq, htx']
  failed := hfailed

/-- A block that waits has a predecessor to wait for. -/
theorem nChainTxBelow_of_find {p : Uint256} {ep : Entry} (hp : e.pprev = some p)
    (hep : m.find p = some ep) : nChainTxBelow m e = ep.nChainTx := by
  rw [nChainTxBelow, hp, Option.bind_some, hep, Option.elim_some]

theorem nChainTxBelow_of_none (hp : e.pprev = none) : nChainTxBelow m e = 0 := by
  rw [nChainTxBelow, hp, Option.bind_none, Option.elim_none]

/-- Numbering one entry leaves the number below every other in place, but for its children. -/
theorem nChainTxBelow_modify (f : Entry → Entry) (hp : e.pprev ≠ some hash) :
    nChainTxBelow (m.modify hash f) e = nChainTxBelow m e := by
  rw [nChainTxBelow, nChainTxBelow]
  cases hpprev : e.pprev with
  | none => rfl
  | some p =>
    rw [Option.bind_some, Option.bind_some, Dict.find_modify, if_neg]
    rintro rfl
    exact hp hpprev

theorem Tree.pprev_ne_self (h : Tree par m) (he : m.find hash = some e) :
    e.pprev ≠ some hash := by
  intro hp
  obtain ⟨ep, hep, hnext⟩ := h.forest.find_pprev he hp
  cases he.symm.trans hep
  omega

/-- One block of the queue is numbered, and those that waited for it join the queue. -/
theorem Linked.link (h : Linked (hash :: queue) m unlinked) (htree : Tree par m)
    (hok : ∀ hash e, m.find hash = some e → e.Ok) (nSequenceId : ℕ) :
    Linked (queue ++ (unlinked.filter (·.1 = hash)).map (·.2))
      (m.modify hash (·.linked m nSequenceId)) (unlinked.filter (·.1 ≠ hash)) := by
  obtain ⟨e, he, hdata, hbelow, hnumber⟩ := h.ready hash List.mem_cons_self
  have htx : e.nTx ≠ 0 := (hok hash e he).txs.mp hdata
  generalize hm' : m.modify hash (·.linked m nSequenceId) = m'
  have hself : m'.find hash = some (e.linked m nSequenceId) := by
    rw [← hm', Dict.find_modify, if_pos rfl, he, Option.map_some]
  have hother {x} (hx : x ≠ hash) : m'.find x = m.find x := by
    rw [← hm', Dict.find_modify, if_neg hx]
  have hbelowSelf : nChainTxBelow m' (e.linked m nSequenceId) = nChainTxBelow m e := by
    have hne := htree.pprev_ne_self he
    rw [← hm', nChainTxBelow_modify _ (show (e.linked m nSequenceId).pprev ≠ some hash from hne)]
    rfl
  have hbelowOther {ex : Entry} (hp : ex.pprev ≠ some hash) :
      nChainTxBelow m' ex = nChainTxBelow m ex := by
    rw [← hm']
    exact nChainTxBelow_modify _ hp
  have hbelowChild {ex : Entry} (hp : ex.pprev = some hash) :
      nChainTxBelow m' ex = nChainTxBelow m e + e.nTx := nChainTxBelow_of_find hp hself
  -- a child that has its number already has the right one
  have hchild {ex : Entry} (hp : ex.pprev = some hash) (hne : nChainTxBelow m ex ≠ 0) :
      nChainTxBelow m' ex = nChainTxBelow m ex := by
    rw [nChainTxBelow_of_find hp he] at hne ⊢
    rw [hbelowChild hp]
    exact (hnumber.resolve_left hne).symm
  constructor
  · intro x ex hx hpending
    rw [List.mem_append, not_or] at hpending
    by_cases hxh : x = hash
    · subst hxh
      cases hself.symm.trans hx
      have hdata' : (e.linked m nSequenceId).hasData = true := hdata
      rw [numbered, if_pos hdata', hbelowSelf]
      change nChainTxBelow m e + e.nTx = if e.pprev.isNone then e.nTx else _
      rcases hbelow with hnone | hne
      · rw [if_pos (by rw [hnone]; rfl), nChainTxBelow_of_none hnone, Nat.zero_add]
      · have hsome : e.pprev.isNone = false := by
          cases hp : e.pprev with
          | none => exact absurd (nChainTxBelow_of_none hp) hne
          | some p => rfl
        rw [if_neg (by simp [hsome]), if_pos hne]
        rfl
    · rw [hother hxh] at hx
      have hold := h.rule x ex hx (by simp [hxh, hpending.1])
      by_cases hp : ex.pprev = some hash
      · by_cases hne : nChainTxBelow m ex = 0
        · have hzero : e.nChainTx = 0 := (nChainTxBelow_of_find hp he).symm.trans hne
          cases hdx : ex.hasData with
          | false =>
            rw [hold, numbered, numbered, hdx]
            rfl
          | true =>
            have hclear : e.failed = false := by
              cases hf : e.failed with
              | false => rfl
              | true => exact absurd hzero (h.failed hash e he hf hdata)
            refine absurd ?_ hpending.2
            exact List.mem_map.mpr ⟨(hash, x), List.mem_filter.mpr
              ⟨h.waiting x ex hash e hx hp he hdx hzero hclear, by simp⟩, rfl⟩
        · rw [hold, numbered, numbered, hchild hp hne]
      · rw [hold, numbered, numbered, hbelowOther hp]
  · intro x ex p ep hx hp hep hdx hzero hclear
    have hpne : p ≠ hash := by
      rintro rfl
      cases hself.symm.trans hep
      exact absurd hzero (by simp only [Entry.linked]; omega)
    rw [hother hpne] at hep
    refine List.mem_filter.mpr ⟨?_, by simpa using hpne⟩
    by_cases hxh : x = hash
    · subst hxh
      cases hself.symm.trans hx
      exact h.waiting x e p ep he hp hep hdata hzero hclear
    · exact h.waiting x ex p ep (hother hxh ▸ hx) hp hep hdx hzero hclear
  · intro p x hmem
    obtain ⟨ex, hx, hp, hdx⟩ := h.genuine p x (List.mem_filter.mp hmem).1
    by_cases hxh : x = hash
    · subst hxh
      cases he.symm.trans hx
      exact ⟨_, hself, hp, hdx⟩
    · exact ⟨ex, hother hxh ▸ hx, hp, hdx⟩
  · intro x hmem
    -- where the block comes from, it is numbered as it should be or not at all
    have hfrom : ∃ ex, m.find x = some ex ∧ ex.hasData = true ∧
        (ex.pprev = none ∨ nChainTxBelow m ex ≠ 0 ∨ ex.pprev = some hash) ∧
        (ex.nChainTx = 0 ∨ nChainTxBelow m ex ≠ 0 ∧ ex.nChainTx = nChainTxBelow m ex + ex.nTx ∨
          ex.pprev = none ∧ ex.nChainTx = ex.nTx) := by
      by_cases hq : x ∈ hash :: queue
      · obtain ⟨ex, hx, hdx, hbx, hnx⟩ := h.ready x hq
        refine ⟨ex, hx, hdx, hbx.imp_right .inl, hnx.imp_right fun hnx => ?_⟩
        rcases hbx with hnone | hne
        · rw [nChainTxBelow_of_none hnone, Nat.zero_add] at hnx
          exact .inr ⟨hnone, hnx⟩
        · exact .inl ⟨hne, hnx⟩
      · have hwaited : (hash, x) ∈ unlinked := by
          rcases List.mem_append.mp hmem with hmem | hmem
          · exact absurd (List.mem_cons_of_mem _ hmem) hq
          · obtain ⟨⟨p, y⟩, hy, rfl⟩ := List.mem_map.mp hmem
            obtain ⟨hy, hp⟩ := List.mem_filter.mp hy
            simp only [decide_eq_true_eq] at hp
            exact hp ▸ hy
        obtain ⟨ex, hx, hp, hdx⟩ := h.genuine hash x hwaited
        refine ⟨ex, hx, hdx, .inr (.inr hp), ?_⟩
        rw [h.rule x ex hx hq, numbered, if_pos hdx, if_neg (by simp [hp])]
        split_ifs with hne
        · exact .inr (.inl ⟨hne, rfl⟩)
        · exact .inl rfl
    obtain ⟨ex, hx, hdx, hbx, hnx⟩ := hfrom
    by_cases hxh : x = hash
    · subst hxh
      cases he.symm.trans hx
      refine ⟨_, hself, hdx, ?_, .inr (by rw [hbelowSelf]; rfl)⟩
      rw [hbelowSelf]
      exact hbelow
    · refine ⟨ex, (hother hxh).trans hx, hdx, ?_, ?_⟩
      · by_cases hp : ex.pprev = some hash
        · rw [hbelowChild hp]
          exact .inr (by omega)
        · rw [hbelowOther hp]
          exact hbx.imp_right fun hbx => hbx.resolve_right hp
      · rcases hnx with hzero | ⟨hne, hnx⟩ | ⟨hnone, hnx⟩
        · exact .inl hzero
        · refine .inr ?_
          by_cases hp : ex.pprev = some hash
          · rw [hchild hp hne, hnx]
          · rw [hbelowOther hp, hnx]
        · exact .inr (by rw [nChainTxBelow_of_none hnone, Nat.zero_add, hnx])
  · intro x ex hx hfx hdx
    by_cases hxh : x = hash
    · subst hxh
      cases hself.symm.trans hx
      simp only [Entry.linked]
      omega
    · exact h.failed x ex (hother hxh ▸ hx) hfx hdx

theorem Entry.nChainTx_received (block : CBlock) (pos : DiskPos) (e : Entry) :
    (e.received block pos).nChainTx = 0 := by
  rw [Entry.received_eq, Entry.raiseValidity_eq]
  rfl

/-- The data of a block has arrived: the block is to be numbered, or it waits. -/
theorem Linked.receive (h : Linked [] m unlinked) (pending : List Uint256)
    (unlinked' : List (Uint256 × Uint256)) (he : m.find hash = some e)
    (hnodata : e.hasData = false) (hclear : e.failed = false) (block : CBlock) (pos : DiskPos)
    (hsub : ∀ x ∈ unlinked, x ∈ unlinked')
    (hnew : ∀ p x, (p, x) ∈ unlinked' → (p, x) ∈ unlinked ∨ x = hash ∧ e.pprev = some p)
    (hpending : pending = [hash] ∧ (e.pprev = none ∨ nChainTxBelow m e ≠ 0) ∨
      pending = [] ∧ e.pprev ≠ none ∧ nChainTxBelow m e = 0)
    (hwait : ∀ p ep, e.pprev = some p → m.find p = some ep → ep.nChainTx = 0 →
      ep.failed = false → (p, hash) ∈ unlinked') :
    Linked pending (m.modify hash (·.received block pos)) unlinked' := by
  have hzero : e.nChainTx = 0 := by
    rw [h.rule hash e he List.not_mem_nil, numbered, hnodata]
    rfl
  have hpprev : (e.received block pos).pprev = e.pprev :=
    Entry.pprev_of_fixed (Entry.fixed_received block pos)
  generalize hm' : m.modify hash (·.received block pos) = m'
  have hself : m'.find hash = some (e.received block pos) := by
    rw [← hm', Dict.find_modify, if_pos rfl, he, Option.map_some]
  have hother {x} (hx : x ≠ hash) : m'.find x = m.find x := by
    rw [← hm', Dict.find_modify, if_neg hx]
  have hchain (p : Uint256) : (m'.find p).map Entry.nChainTx = (m.find p).map Entry.nChainTx := by
    by_cases hp : p = hash
    · rw [hp, hself, he, Option.map_some, Option.map_some, Entry.nChainTx_received, hzero]
    · rw [hother hp]
  have hcases {x ex'} (hx : m'.find x = some ex') :
      x = hash ∧ ex' = e.received block pos ∨ x ≠ hash ∧ m.find x = some ex' := by
    by_cases hxh : x = hash
    · subst hxh
      exact .inl ⟨rfl, (Option.some.inj (hself.symm.trans hx)).symm⟩
    · exact .inr ⟨hxh, hother hxh ▸ hx⟩
  constructor
  · intro x ex' hx hnot
    rcases hcases hx with ⟨rfl, rfl⟩ | ⟨hxh, hx⟩
    · rcases hpending with ⟨hp, -⟩ | ⟨-, hsome, hbelow⟩
      · exact absurd (hp ▸ List.mem_singleton_self x) hnot
      · have hnone : e.pprev.isNone = false :=
          Option.isNone_eq_false_iff.mpr (Option.isSome_iff_ne_none.mpr hsome)
        rw [Entry.nChainTx_received, numbered, if_pos (Entry.hasData_received block pos), hpprev,
          hnone, nChainTxBelow_congr hchain hpprev, hbelow]
        rfl
    · rw [h.rule x ex' hx List.not_mem_nil, numbered, numbered, nChainTxBelow_congr hchain rfl]
  · intro x ex' p ep' hx hp hep hdata hep0 hepclear
    -- what is known of the predecessor was known before
    have hbefore : ∃ ep, m.find p = some ep ∧ ep.nChainTx = 0 ∧ ep.failed = false := by
      rcases hcases hep with ⟨rfl, rfl⟩ | ⟨-, hep⟩
      · exact ⟨e, he, hzero, hclear⟩
      · exact ⟨ep', hep, hep0, hepclear⟩
    obtain ⟨ep, hep, hep0, hepclear⟩ := hbefore
    rcases hcases hx with ⟨rfl, rfl⟩ | ⟨-, hx⟩
    · exact hwait p ep (hpprev.symm.trans hp) hep hep0 hepclear
    · exact hsub _ (h.waiting x ex' p ep hx hp hep hdata hep0 hepclear)
  · intro p x hmem
    rcases hnew p x hmem with hold | ⟨rfl, hp⟩
    · obtain ⟨ex, hex, hp, hdata⟩ := h.genuine p x hold
      have hxh : x ≠ hash := by
        rintro rfl
        cases he.symm.trans hex
        cases hnodata.symm.trans hdata
      exact ⟨ex, hother hxh ▸ hex, hp, hdata⟩
    · exact ⟨_, hself, hpprev.trans hp, Entry.hasData_received block pos⟩
  · intro x hx
    rcases hpending with ⟨rfl, hbelow⟩ | ⟨rfl, -⟩
    · cases List.mem_singleton.mp hx
      refine ⟨_, hself, Entry.hasData_received block pos, ?_,
        .inl (Entry.nChainTx_received block pos e)⟩
      rwa [hpprev, nChainTxBelow_congr hchain hpprev]
    · exact absurd hx List.not_mem_nil
  · intro x ex' hx hfailed hdata
    rcases hcases hx with ⟨rfl, rfl⟩ | ⟨-, hx⟩
    · rw [Entry.failed_received, hclear] at hfailed
      cases hfailed
    · exact h.failed x ex' hx hfailed hdata

theorem nChainTxBelow_set (hnew : m.find hash = none) (e : Entry) {ex : Entry}
    (hpprev : ∀ p, ex.pprev = some p → ∃ ep, m.find p = some ep) :
    nChainTxBelow (m.set hash e) ex = nChainTxBelow m ex := by
  rw [nChainTxBelow, nChainTxBelow]
  cases hp : ex.pprev with
  | none => rfl
  | some p =>
    obtain ⟨ep, hep⟩ := hpprev p hp
    rw [Option.bind_some, Option.bind_some, hep, find_newEntry hnew e hep]

/-- A block of which only the header is known does not take part. -/
theorem Linked.add (h : Linked [] m unlinked) (htree : Tree par m)
    (hnew : m.find hash = none) (hfresh : e.Fresh) : Linked [] (m.set hash e) unlinked where
  rule x ex hx _ := by
    rcases Dict.find_set_cases hx with ⟨-, rfl⟩ | ⟨-, hx⟩
    · rw [hfresh.nChainTx, numbered, hfresh.hasData]
      rfl
    · rw [h.rule x ex hx List.not_mem_nil, numbered, numbered,
        nChainTxBelow_set hnew e fun p hp => (htree.forest.find_pprev hx hp).imp fun _ hep => hep.1]
  waiting x ex p ep hx hp hep hdata hzero hclear := by
    rcases Dict.find_set_cases hx with ⟨-, rfl⟩ | ⟨-, hx⟩
    · cases hfresh.hasData.symm.trans hdata
    · obtain ⟨ep', hep', -⟩ := htree.forest.find_pprev hx hp
      cases (find_newEntry hnew e hep').symm.trans hep
      exact h.waiting x ex p ep hx hp hep' hdata hzero hclear
  genuine p x hmem := by
    obtain ⟨ex, hex, hp, hdata⟩ := h.genuine p x hmem
    exact ⟨ex, find_newEntry hnew e hex, hp, hdata⟩
  ready x hx := absurd hx List.not_mem_nil
  failed x ex hx hfailed hdata := by
    rcases Dict.find_set_cases hx with ⟨-, rfl⟩ | ⟨-, hx⟩
    · cases hfresh.hasData.symm.trans hdata
    · exact h.failed x ex hx hfailed hdata

/-- The lines of the blocks known before stay as they are. -/
theorem Tree.lineOf_set (h : Tree par m) (h' : Tree par (m.set hash e))
    (hnew : m.find hash = none) {x : Uint256} {ex : Entry} (hx : m.find x = some ex) :
    lineOf (m.set hash e) x = lineOf m x := by
  refine h.forest.induct (P := fun x _ => lineOf (m.set hash e) x = lineOf m x)
    (fun x ex hx ih => ?_) hx
  rw [h.lineOf_eq hx, h'.lineOf_eq (find_newEntry hnew e hx)]
  cases hp : ex.pprev with
  | none => rfl
  | some p =>
    obtain ⟨ep, hep, -⟩ := h.forest.find_pprev hx hp
    exact congrArg (x :: ·) (ih p ep hp hep)

end Linked


/-! The node. -/

/-- The active chain is the line of the best block, received and without a failure; before the
first block there is none. -/
def Active (n : Node) : Prop :=
  (n.chainActive = [] ∧ n.bestBlock = 0) ∨
    ((n.find n.bestBlock).isSome ∧ n.chainActive = (lineOf n.mapBlockIndex n.bestBlock).reverse ∧
      ∀ hash ∈ n.chainActive, ∀ e, n.find hash = some e → e.hasData = true ∧ e.failed = false)

/-- Some block on the line of `hash` failed. -/
def Blamed (m : BlockMap) (hash : Uint256) : Prop :=
  ∃ x ∈ lineOf m hash, ∃ ex, m.find x = some ex ∧ ex.failedValid = true

/-- The rules of the index in memory; the blocks of `pending` are still to be numbered. -/
structure Kept (par : Params) (pending : List Uint256) (n : Node) : Prop where
  tree : Tree par n.mapBlockIndex
  ok : ∀ hash e, n.find hash = some e → e.Ok
  linked : Linked pending n.mapBlockIndex n.mapBlocksUnlinked
  candidate : ∀ hash ∈ n.setBlockIndexCandidates, ∃ e, n.find hash = some e ∧ e.nChainTx ≠ 0
  blamed : ∀ hash e, n.find hash = some e → e.nStatus.testBit 6 = true →
    Blamed n.mapBlockIndex hash
  active : Active n

/-- A record without the mark for blocks above a failed one. -/
def marked (d : CDiskBlockIndex) : CDiskBlockIndex := { d with nStatus := d.nStatus ||| 64 }

/-- The entries that are not in `dirty` have a record, which may lack the mark of a failure
below; there are no other records. -/
structure Saved (dirty : List Uint256) (n : Node) : Prop where
  record : ∀ hash e, n.find hash = some e → hash ∉ dirty →
    ∃ d, n.blockTree.find hash = some d ∧ marked d = marked e.disk
  known : ∀ hash, (n.blockTree.find hash).isSome → (n.find hash).isSome

/-- What an assignment may change of an entry that keeps its place in the chain of received
blocks. -/
structure Quiet (e e' : Entry) : Prop where
  core : e'.core = e.core
  failed : e.failed = true → e'.failed = true
  failedValid : e.failedValid = true → e'.failedValid = true
  ok : e.Ok → e'.Ok

section Kept

variable {par : Params} {proc : Process} {n : Node} {hash : Uint256} {e : Entry}
  {pending queue dirty : List Uint256} {f : Entry → Entry}

theorem Node.find_modify (n : Node) (hash x : Uint256) (f : Entry → Entry) :
    (n.modify hash f).find x = if x = hash then (n.find hash).map f else n.find x :=
  Dict.find_modify _ _ _ _

theorem Node.find_modify_cases {x : Uint256} (h : (n.modify hash f).find x = some e) :
    (x = hash ∧ ∃ v, n.find x = some v ∧ e = f v) ∨ x ≠ hash ∧ n.find x = some e :=
  Dict.find_modify_cases h

/-- A block has a number if and only if its line has been received. -/
theorem Linked.received_iff {m : BlockMap} {unlinked : List (Uint256 × Uint256)}
    (h : Linked [] m unlinked) (htree : Tree par m)
    (hok : ∀ hash e, m.find hash = some e → e.Ok) (he : m.find hash = some e) :
    e.nChainTx ≠ 0 ↔ ∀ x ∈ lineOf m hash, ∀ ex, m.find x = some ex → ex.hasData = true := by
  refine htree.forest.induct (P := fun hash e => e.nChainTx ≠ 0 ↔
    ∀ x ∈ lineOf m hash, ∀ ex, m.find x = some ex → ex.hasData = true)
    (fun hash e he ih => ?_) he
  have hself : (∀ ex, m.find hash = some ex → ex.hasData = true) ↔ e.hasData = true :=
    ⟨fun hx => hx e he, fun hd ex hx => by cases he.symm.trans hx; exact hd⟩
  rw [htree.lineOf_eq he, h.rule hash e he List.not_mem_nil, List.forall_mem_cons, hself,
    numbered]
  cases hdata : e.hasData with
  | false => simp
  | true =>
    have htx : e.nTx ≠ 0 := (hok hash e he).txs.mp hdata
    cases hp : e.pprev with
    | none => simpa using htx
    | some p =>
      obtain ⟨ep, hep, -⟩ := htree.forest.find_pprev he hp
      have hbelow : nChainTxBelow m e ≠ 0 ↔
          ∀ x ∈ lineOf m p, ∀ ex, m.find x = some ex → ex.hasData = true := by
        rw [nChainTxBelow_of_find hp hep]
        exact ih p ep hp hep
      rw [if_pos rfl, if_neg (by simp), Option.elim_some, ← hbelow]
      split_ifs with hne
      · simp [hne]
      · simp [hne]

theorem Linked.line_received {m : BlockMap} {unlinked : List (Uint256 × Uint256)}
    (h : Linked [] m unlinked) (htree : Tree par m)
    (hok : ∀ hash e, m.find hash = some e → e.Ok) (he : m.find hash = some e)
    (hne : e.nChainTx ≠ 0) {x : Uint256} {ex : Entry} (hx : x ∈ lineOf m hash)
    (hex : m.find x = some ex) : ex.nChainTx ≠ 0 :=
  (h.received_iff htree hok hex).mpr fun y hy =>
    (h.received_iff htree hok he).mp hne y ((htree.lineOf_suffix he hx).mem hy)

theorem Kept.modify (h : Kept par pending n) (hquiet : ∀ e, n.find hash = some e → Quiet e (f e))
    (hblamed : ∀ e, n.find hash = some e → (f e).nStatus.testBit 6 = true →
      e.nStatus.testBit 6 = true ∨ Blamed n.mapBlockIndex hash)
    (hfailed : ∀ e, n.find hash = some e → (f e).failed = true →
      e.failed = true ∨ hash ∉ n.chainActive ∧ (e.hasData = true → e.nChainTx ≠ 0)) :
    Kept par pending (n.modify hash f) := by
  have hcore : SameCore n.mapBlockIndex (n.modify hash f).mapBlockIndex :=
    .of_modify _ _ fun e he => (hquiet e he).core
  have htree := hcore.sameTree
  have hfind {x ex} (hx : n.find x = some ex) : ∃ ex', (n.modify hash f).find x = some ex' ∧
      (ex.failedValid = true → ex'.failedValid = true) := by
    rw [Node.find_modify]
    split_ifs with hxh
    · subst hxh
      exact ⟨f ex, by rw [hx, Option.map_some], (hquiet ex hx).failedValid⟩
    · exact ⟨ex, hx, id⟩
  have hblame {x} (hx : Blamed n.mapBlockIndex x) : Blamed (n.modify hash f).mapBlockIndex x := by
    obtain ⟨y, hy, ey, hey, hvalid⟩ := hx
    obtain ⟨ey', hey', hvalid'⟩ := hfind hey
    exact ⟨y, htree.lineOf_eq x ▸ hy, ey', hey', hvalid' hvalid⟩
  constructor
  · exact h.tree.congr htree
  · intro x ex hx
    rcases Node.find_modify_cases hx with ⟨rfl, v, hv, rfl⟩ | ⟨-, hx⟩
    · exact (hquiet v hv).ok (h.ok x v hv)
    · exact h.ok x ex hx
  · refine h.linked.congr hcore (.of_modify _ _ fun e he => (hquiet e he).failed) ?_
    intro x ex hx hfx hdx
    rcases Dict.find_modify_cases hx with ⟨rfl, v, hv, rfl⟩ | ⟨-, hx⟩
    · obtain ⟨-, hdata, -, hchain⟩ := Entry.of_core (hquiet v hv).core
      rw [hchain]
      rw [hdata] at hdx
      rcases hfailed v hv hfx with hold | ⟨-, hnew⟩
      · exact h.linked.failed x v hv hold hdx
      · exact hnew hdx
    · exact h.linked.failed x ex hx hfx hdx
  · intro x hx
    obtain ⟨ex, hex, hne⟩ := h.candidate x hx
    rw [Node.find_modify]
    split_ifs with hxh
    · subst hxh
      refine ⟨f ex, by rw [hex, Option.map_some], ?_⟩
      rw [(Entry.of_core (hquiet ex hex).core).2.2.2]
      exact hne
    · exact ⟨ex, hex, hne⟩
  · intro x ex hx hbit
    rcases Node.find_modify_cases hx with ⟨rfl, v, hv, rfl⟩ | ⟨-, hx⟩
    · rcases hblamed v hv hbit with hold | hnew
      · exact hblame (h.blamed x v hv hold)
      · exact hblame hnew
    · exact hblame (h.blamed x ex hx hbit)
  · refine h.active.imp id fun ⟨hbest, hchain, hall⟩ => ⟨?_, ?_, fun x hx ex hex => ?_⟩
    · obtain ⟨eb, heb⟩ := Option.isSome_iff_exists.mp hbest
      obtain ⟨eb', heb', -⟩ := hfind heb
      exact Option.isSome_iff_exists.mpr ⟨eb', heb'⟩
    · exact hchain.trans (congrArg List.reverse (htree.lineOf_eq _).symm)
    · rcases Node.find_modify_cases hex with ⟨rfl, v, hv, rfl⟩ | ⟨-, hex⟩
      · obtain ⟨hdata, hclear⟩ := hall x hx v hv
        refine ⟨(Entry.of_core (hquiet v hv).core).2.1.trans hdata, ?_⟩
        cases hf : (f v).failed with
        | false => rfl
        | true =>
          rcases hfailed v hv hf with hold | ⟨hnot, -⟩
          · exact absurd hold (by simp [hclear])
          · exact absurd hx hnot
      · exact hall x hx ex hex

/-- Candidates may go. -/
theorem Kept.candidates (h : Kept par pending n) (candidates : List Uint256)
    (hsub : ∀ x ∈ candidates, x ∈ n.setBlockIndexCandidates) :
    Kept par pending { n with setBlockIndexCandidates := candidates } :=
  ⟨h.tree, h.ok, h.linked, fun x hx => h.candidate x (hsub x hx), h.blamed, h.active⟩

theorem Kept.insertDirty (h : Kept par pending n) (hash : Uint256) :
    Kept par pending (n.insertDirty hash) :=
  ⟨h.tree, h.ok, h.linked, h.candidate, h.blamed, h.active⟩

theorem Kept.insertCandidate (h : Kept par pending n) (he : n.find hash = some e)
    (hne : e.nChainTx ≠ 0) : Kept par pending (n.insertCandidate hash) := by
  refine ⟨h.tree, h.ok, h.linked, fun x hx => ?_, h.blamed, h.active⟩
  rw [Node.insertCandidate] at hx
  dsimp only at hx
  split_ifs at hx with hmem
  · exact h.candidate x hx
  · rcases List.mem_cons.mp hx with rfl | hx
    · exact ⟨e, he, hne⟩
    · exact h.candidate x hx

/-! A block that arrives. -/

theorem Blamed.congr {m m' : BlockMap} (hs : SameTree m m')
    (hvalid : ∀ x ex, m.find x = some ex → ex.failedValid = true →
      ∃ ex', m'.find x = some ex' ∧ ex'.failedValid = true) (h : Blamed m hash) :
    Blamed m' hash := by
  obtain ⟨x, hx, ex, hex, hf⟩ := h
  exact ⟨x, hs.lineOf_eq hash ▸ hx, hvalid x ex hex hf⟩

/-- The chain is the line of the best block also after a change of other entries. -/
theorem Active.congr (h : Active n) {n' : Node} (hs : SameTree n.mapBlockIndex n'.mapBlockIndex)
    (hchain : n'.chainActive = n.chainActive) (hbest : n'.bestBlock = n.bestBlock)
    (hsame : ∀ x ∈ n.chainActive, ∀ ex', n'.find x = some ex' →
      ∃ ex, n.find x = some ex ∧ ex'.hasData = ex.hasData ∧ ex'.failed = ex.failed) :
    Active n' := by
  rcases h with ⟨hnil, hzero⟩ | ⟨hfind, hline, hall⟩
  · exact .inl ⟨hchain.trans hnil, hbest.trans hzero⟩
  · refine .inr ⟨?_, ?_, fun x hx ex' hex' => ?_⟩
    · obtain ⟨eb, heb⟩ := Option.isSome_iff_exists.mp hfind
      obtain ⟨eb', heb', -⟩ := hs.find_of_exists heb
      rw [hbest]
      exact Option.isSome_iff_exists.mpr ⟨eb', heb'⟩
    · rw [hchain, hbest, hline, hs.lineOf_eq]
    · rw [hchain] at hx
      obtain ⟨ex, hex, hdata, hfailed⟩ := hsame x hx ex' hex'
      rw [hdata, hfailed]
      exact hall x hx ex hex

theorem Kept.link (h : Kept par (hash :: queue) n) (nSequenceId : ℕ) :
    Kept par (queue ++ (n.mapBlocksUnlinked.filter (·.1 = hash)).map (·.2))
      { n.modify hash (·.linked n.mapBlockIndex nSequenceId) with
        mapBlocksUnlinked := n.mapBlocksUnlinked.filter (·.1 ≠ hash) } := by
  have hs : SameTree n.mapBlockIndex
      (n.mapBlockIndex.modify hash (·.linked n.mapBlockIndex nSequenceId)) :=
    .of_modify _ _ fun e _ => rfl
  have hback {x ex'}
      (hx : (n.modify hash (·.linked n.mapBlockIndex nSequenceId)).find x = some ex') :
      ∃ ex, n.find x = some ex ∧ ex'.nStatus = ex.nStatus ∧ (ex.Ok → ex'.Ok) := by
    rcases Node.find_modify_cases hx with ⟨rfl, v, hv, rfl⟩ | ⟨-, hx⟩
    · exact ⟨v, hv, rfl, fun hok => ⟨hok.1, hok.2, hok.3, hok.4, hok.5, hok.6, hok.7⟩⟩
    · exact ⟨ex', hx, rfl, id⟩
  obtain ⟨e, he, hdata, -, -⟩ := h.linked.ready hash List.mem_cons_self
  have hfind : n.find hash = some e := he
  have htx : e.nTx ≠ 0 := (h.ok hash e he).txs.mp hdata
  constructor
  · exact h.tree.congr hs
  · intro x ex' hx
    obtain ⟨ex, hex, -, hok⟩ := hback hx
    exact hok (h.ok x ex hex)
  · exact h.linked.link h.tree h.ok nSequenceId
  · intro x hx
    obtain ⟨ex, hex, hne⟩ := h.candidate x hx
    change ∃ e, (n.modify hash _).find x = some e ∧ _
    rw [Node.find_modify]
    split_ifs with hxh
    · rw [hfind, Option.map_some]
      exact ⟨_, rfl, by simp only [Entry.linked]; omega⟩
    · exact ⟨ex, hex, hne⟩
  · intro x ex' hx hbit
    obtain ⟨ex, hex, hstatus, -⟩ := hback hx
    refine Blamed.congr hs (fun y ey hey hf => ?_) (h.blamed x ex hex (hstatus ▸ hbit))
    have hfindy : n.find y = some ey := hey
    change ∃ ex', (n.modify hash _).find y = some ex' ∧ _
    rw [Node.find_modify]
    split_ifs with hyh
    · rw [← hyh, hfindy, Option.map_some]
      exact ⟨_, rfl, hf⟩
    · exact ⟨ey, hfindy, hf⟩
  · refine h.active.congr hs rfl rfl fun x _ ex' hx => ?_
    obtain ⟨ex, hex, hstatus, -⟩ := hback hx
    refine ⟨ex, hex, ?_, ?_⟩
    · rw [Entry.hasData, Entry.hasData, hstatus]
    · rw [Entry.failed, Entry.failed, hstatus]

theorem unlinked_linkBlock (proc : Process) (n : Node) (hash : Uint256) :
    (linkBlock proc n hash).mapBlocksUnlinked = n.mapBlocksUnlinked := by
  unfold linkBlock
  dsimp only
  split
  · rfl
  · split_ifs <;> rfl

theorem Kept.linkBlock (h : Kept par (hash :: queue) n) :
    Kept par (queue ++ (n.mapBlocksUnlinked.filter (·.1 = hash)).map (·.2))
      { linkBlock proc n hash with
        mapBlocksUnlinked := n.mapBlocksUnlinked.filter (·.1 ≠ hash) } := by
  have hlink := h.link n.nBlockSequenceId
  obtain ⟨e, he, hdata, -, -⟩ := h.linked.ready hash List.mem_cons_self
  have hfind : n.find hash = some e := he
  have htx : e.nTx ≠ 0 := (h.ok hash e he).txs.mp hdata
  have hinsert := hlink.insertCandidate
    (e := e.linked n.mapBlockIndex n.nBlockSequenceId)
    (by
      change (n.modify hash _).find hash = _
      rw [Node.find_modify, if_pos rfl, hfind, Option.map_some])
    (by simp only [Entry.linked]; omega)
  unfold BlockIndex.linkBlock
  dsimp only
  split
  · exact ⟨hinsert.1, hinsert.2, hinsert.3, hinsert.4, hinsert.5, hinsert.6⟩
  · split_ifs
    · exact ⟨hlink.1, hlink.2, hlink.3, hlink.4, hlink.5, hlink.6⟩
    · exact ⟨hinsert.1, hinsert.2, hinsert.3, hinsert.4, hinsert.5, hinsert.6⟩

theorem Kept.linkQueue {k : ℕ} (hk : queue.length + n.mapBlocksUnlinked.length ≤ k)
    (h : Kept par queue n) : Kept par [] (linkQueue proc k queue n) := by
  induction k generalizing queue n with
  | zero =>
    have hnil : queue = [] := List.length_eq_zero_iff.mp (by omega)
    exact hnil ▸ h
  | succ k ih =>
    cases queue with
    | nil => exact h
    | cons hash queue =>
      have hsplit := List.length_eq_length_filter_add (l := n.mapBlocksUnlinked)
        (fun x => decide (x.1 = hash))
      rw [BlockIndex.linkQueue, unlinked_linkBlock]
      refine ih ?_ h.linkBlock
      simp only [List.length_cons] at hk
      simp only [List.length_append, List.length_map, ne_eq, decide_not]
      omega

/-- What `ReceivedBlockTransactions` does with a block that was not received before. -/
theorem Kept.received (h : Kept par [] n) (he : n.find hash = some e)
    (hnodata : e.hasData = false) (hclear : e.failed = false) {block : CBlock}
    (hvtx : block.vtx ≠ []) (pos : DiskPos) {unlinked : List (Uint256 × Uint256)}
    (hlinked : Linked pending (n.mapBlockIndex.modify hash (·.received block pos)) unlinked) :
    Kept par pending
      { n.modify hash (·.received block pos) with mapBlocksUnlinked := unlinked } := by
  have hs : SameTree n.mapBlockIndex
      (n.mapBlockIndex.modify hash (·.received block pos)) :=
    .of_modify _ _ fun e _ => Entry.fixed_received block pos
  have hbits {x ex'} (hx : (n.modify hash (·.received block pos)).find x = some ex') :
      ∃ ex, n.find x = some ex ∧ (∀ i, 4 ≤ i → ex'.nStatus.testBit i = ex.nStatus.testBit i) ∧
        (x = hash ∧ ex' = e.received block pos ∨ ex' = ex) := by
    rcases Node.find_modify_cases hx with ⟨rfl, v, hv, rfl⟩ | ⟨-, hx⟩
    · cases he.symm.trans hv
      refine ⟨e, he, fun i hi => ?_, .inl ⟨rfl, rfl⟩⟩
      rw [Entry.testBit_received block pos (by omega)]
      simp [show 3 ≠ i by omega]
    · exact ⟨ex', hx, fun _ _ => rfl, .inr rfl⟩
  constructor
  · exact h.tree.congr hs
  · intro x ex' hx
    obtain ⟨ex, hex, -, ⟨rfl, rfl⟩ | rfl⟩ := hbits hx
    · exact (h.ok x e he).received hclear hvtx pos
    · exact h.ok x ex' hex
  · exact hlinked
  · intro x hx
    obtain ⟨ex, hex, hne⟩ := h.candidate x hx
    have hxh : x ≠ hash := by
      rintro rfl
      cases he.symm.trans hex
      refine hne ((h.linked.rule x e he List.not_mem_nil).trans ?_)
      rw [numbered, hnodata]
      rfl
    refine ⟨ex, ?_, hne⟩
    change (n.modify hash _).find x = _
    rw [Node.find_modify, if_neg hxh, hex]
  · intro x ex' hx hbit
    obtain ⟨ex, hex, hsame, -⟩ := hbits hx
    refine Blamed.congr hs (fun y ey hey hf => ?_)
      (h.blamed x ex hex ((hsame 6 (by decide)).symm.trans hbit))
    have hfindy : n.find y = some ey := hey
    change ∃ ex', (n.modify hash _).find y = some ex' ∧ _
    rw [Node.find_modify]
    split_ifs with hyh
    · subst hyh
      rw [hfindy, Option.map_some]
      refine ⟨_, rfl, ?_⟩
      rw [Entry.failedValid, Entry.testBit_received block pos (by decide)]
      simpa [Entry.failedValid] using hf
    · exact ⟨ey, hfindy, hf⟩
  · refine h.active.congr hs rfl rfl fun x hx ex' hex' => ?_
    obtain ⟨ex, hex, hsame, ⟨rfl, rfl⟩ | rfl⟩ := hbits hex'
    · rcases h.active with ⟨hnil, -⟩ | ⟨-, -, hall⟩
      · exact absurd (hnil ▸ hx) List.not_mem_nil
      · exact absurd (hall x hx e he).1 (by simp [hnodata])
    · exact ⟨ex', hex, rfl, rfl⟩

theorem Kept.receivedBlockTransactions (h : Kept par [] n) (he : n.find hash = some e)
    (hnodata : e.hasData = false) (hclear : e.failed = false) {block : CBlock}
    (hvtx : block.vtx ≠ []) (pos : DiskPos) :
    Kept par [] (receivedBlockTransactions proc n block hash pos) := by
  have hpprev : (e.received block pos).pprev = e.pprev :=
    Entry.pprev_of_fixed (Entry.fixed_received block pos)
  have hself : (n.modify hash (·.received block pos)).find hash =
      some (e.received block pos) := by
    rw [Node.find_modify, if_pos rfl, he, Option.map_some]
  -- with a predecessor to build on, or without any, the block is numbered at once
  have hqueue (hbelow : e.pprev = none ∨ nChainTxBelow n.mapBlockIndex e ≠ 0) :
      Kept par [] (BlockIndex.linkQueue proc (n.mapBlocksUnlinked.length + 1) [hash]
        ((n.modify hash (·.received block pos)).insertDirty hash)) := by
    refine Kept.linkQueue (by simp [Node.insertDirty, Node.modify, Nat.add_comm]) ?_
    have hlinked := h.linked.receive [hash] _ he hnodata hclear block pos (fun x hx => hx)
      (fun p x hx => .inl hx) (.inl ⟨rfl, hbelow⟩) (fun p ep hp hep hzero _ => by
        rcases hbelow with hnone | hne
        · cases hnone.symm.trans hp
        · exact absurd ((nChainTxBelow_of_find hp hep).trans hzero) hne)
    have hkept := h.received he hnodata hclear hvtx pos hlinked
    exact ⟨hkept.1, hkept.2, hkept.3, hkept.4, hkept.5, hkept.6⟩
  have hparent : parent ((n.modify hash (·.received block pos)).insertDirty hash).mapBlockIndex
      hash = e.pprev := (parent_of_find hself).trans hpprev
  unfold BlockIndex.receivedBlockTransactions
  dsimp only
  rw [hparent]
  cases hp : e.pprev with
  | none => exact hqueue (.inl hp)
  | some p =>
    obtain ⟨ep, hep, -⟩ := h.tree.forest.find_pprev he hp
    have hfindp : ((n.modify hash (·.received block pos)).insertDirty hash).find p =
        some ep := by
      change (n.modify hash _).find p = _
      rw [Node.find_modify, if_neg]
      · exact hep
      · rintro rfl
        exact h.tree.pprev_ne_self he hp
    have hbelow : nChainTxBelow n.mapBlockIndex e = ep.nChainTx := nChainTxBelow_of_find hp hep
    rw [Option.bind_some, hfindp, Option.map_some]
    dsimp only
    split_ifs with hne hvalid
    · exact hqueue (.inr (hbelow ▸ hne))
    · have hlinked := h.linked.receive [] (n.mapBlocksUnlinked ++ [(p, hash)]) he hnodata
        hclear block pos
        (fun x hx => List.mem_append_left _ hx)
        (fun q x hx => by
          rcases List.mem_append.mp hx with hx | hx
          · exact .inl hx
          · cases List.mem_singleton.mp hx
            exact .inr ⟨rfl, hp⟩)
        (.inr ⟨rfl, by simp [hp], hbelow.trans (not_not.mp hne)⟩)
        (fun q eq hq _ _ _ => by
          cases hp.symm.trans hq
          exact List.mem_append_right _ (List.mem_singleton_self _))
      have hkept := h.received he hnodata hclear hvtx pos hlinked
      exact ⟨hkept.1, hkept.2, hkept.3, hkept.4, hkept.5, hkept.6⟩
    · have hfailed : ep.failed = true := by
        have htree := (h.ok p ep hep).tree
        cases hf : ep.failed with
        | true => rfl
        | false => exact absurd (by simpa [Entry.isValid, hf, Entry.level] using htree) hvalid
      have hlinked := h.linked.receive [] n.mapBlocksUnlinked he hnodata hclear block pos
        (fun x hx => hx) (fun q x hx => .inl hx)
        (.inr ⟨rfl, by simp [hp], hbelow.trans (not_not.mp hne)⟩)
        (fun q eq hq heq _ hclear => by
          cases hp.symm.trans hq
          cases hep.symm.trans heq
          cases hfailed.symm.trans hclear)
      have hkept := h.received he hnodata hclear hvtx pos hlinked
      exact ⟨hkept.1, hkept.2, hkept.3, hkept.4, hkept.5, hkept.6⟩

theorem Kept.addToBlockIndex (h : Kept par [] n) {block : CBlock}
    (hnew : n.find (hashOf par block) = none) {ep : Entry}
    (hep : n.find block.hashPrevBlock = some ep) (hashProofOfStake : Uint256) :
    Kept par [] (addToBlockIndex par proc n block hashProofOfStake) := by
  have hfresh := Entry.fresh_newEntry par proc n.mapBlockIndex block hashProofOfStake
  have htree : Tree par (n.mapBlockIndex.set (hashOf par block)
      (newEntry par proc n.mapBlockIndex block hashProofOfStake)) := h.tree.add hnew hep
  unfold BlockIndex.addToBlockIndex
  dsimp only
  generalize newEntry par proc n.mapBlockIndex block hashProofOfStake = e at hfresh htree ⊢
  have hblame {x ex} (hx : n.find x = some ex) (hb : Blamed n.mapBlockIndex x) :
      Blamed (n.mapBlockIndex.set (hashOf par block) e) x := by
    obtain ⟨y, hy, ey, hey, hf⟩ := hb
    exact ⟨y, (h.tree.lineOf_set htree hnew hx).symm ▸ hy, ey, find_newEntry hnew _ hey, hf⟩
  have hnode :
      Kept par [] { n with mapBlockIndex := n.mapBlockIndex.set (hashOf par block) e } := by
    constructor
    · exact htree
    · intro x ex hx
      rcases Dict.find_set_cases hx with ⟨-, rfl⟩ | ⟨-, hx⟩
      · exact hfresh.ok
      · exact h.ok x ex hx
    · exact h.linked.add h.tree hnew hfresh
    · intro x hx
      obtain ⟨ex, hex, hne⟩ := h.candidate x hx
      exact ⟨ex, find_newEntry hnew _ hex, hne⟩
    · intro x ex hx hbit
      rcases Dict.find_set_cases hx with ⟨-, rfl⟩ | ⟨-, hx⟩
      · rw [hfresh.status] at hbit
        exact absurd hbit (by decide)
      · exact hblame hx (h.blamed x ex hx hbit)
    · refine h.active.imp id fun ⟨hfind, hline, hall⟩ => ?_
      obtain ⟨eb, heb⟩ := Option.isSome_iff_exists.mp hfind
      refine ⟨?_, ?_, fun x hx ex hex => ?_⟩
      · exact Option.isSome_iff_exists.mpr ⟨eb, find_newEntry hnew _ heb⟩
      · exact hline.trans (congrArg List.reverse (h.tree.lineOf_set htree hnew heb).symm)
      · obtain ⟨ex', hex'⟩ := h.tree.find_of_mem_lineOf heb (List.mem_reverse.mp (hline ▸ hx))
        cases (find_newEntry hnew _ hex').symm.trans hex
        exact hall x hx ex hex'
  unfold Node.insertStake
  split_ifs
  · exact ⟨hnode.1, hnode.2, hnode.3, hnode.4, hnode.5, hnode.6⟩
  · exact ⟨hnode.1, hnode.2, hnode.3, hnode.4, hnode.5, hnode.6⟩

theorem find_addToBlockIndex (par : Params) (proc : Process) (n : Node) (block : CBlock)
    (hashProofOfStake : Uint256) :
    (addToBlockIndex par proc n block hashProofOfStake).find (hashOf par block) =
      some (newEntry par proc n.mapBlockIndex block hashProofOfStake) := by
  unfold addToBlockIndex Node.insertStake
  split_ifs
  · exact Dict.find_set_self _ _ _
  · exact Dict.find_set_self _ _ _

theorem quiet_addStatus (e : Entry) {i : ℕ} (hi : 5 ≤ i) : Quiet e (e.addStatus (2 ^ i)) where
  core := Entry.core_addStatus (by omega)
  failed := Entry.failed_addStatus i
  failedValid h := by
    rw [Entry.failedValid, Entry.testBit_addStatus, Bool.or_eq_true]
    exact .inl h
  ok h := h.addStatus hi

theorem quiet_connected (hdata : e.hasData = true) (nUndoPos : ℕ) :
    Quiet e (e.connected nUndoPos) where
  core := Entry.core_connected nUndoPos
  failed h := (Entry.failed_connected nUndoPos).trans h
  failedValid h := by
    rw [Entry.failedValid, Entry.testBit_connected nUndoPos (by decide) (by decide)]
    exact h
  ok h := h.connected hdata nUndoPos

theorem quiet_summed (m : BlockMap) (minted : CAmount) (e : Entry) :
    Quiet e (e.summed m minted) where
  core := rfl
  failed h := h
  failedValid h := h
  ok h := ⟨h.1, h.2, h.3, h.4, h.5, h.6, h.7⟩

theorem Active.hasData (h : Active n) (he : n.find hash = some e) (hx : hash ∈ n.chainActive) :
    e.hasData = true ∧ e.failed = false := by
  rcases h with ⟨hnil, -⟩ | ⟨-, -, hall⟩
  · exact absurd (hnil ▸ hx) List.not_mem_nil
  · exact hall hash hx e he

/-- The checks of a block blame it. -/
theorem Kept.fail (h : Kept par pending n) (hash : Uint256)
    (hoff : ∀ e, n.find hash = some e →
      hash ∉ n.chainActive ∧ (e.hasData = true → e.nChainTx ≠ 0)) :
    Kept par pending (n.modify hash (·.addStatus blockFailedValid)) := by
  refine h.modify (fun e _ => quiet_addStatus (i := 5) e le_rfl) (fun e he hbit => .inl ?_)
    (fun e he _ => .inr (hoff e he))
  have hsame := Entry.testBit_addStatus (e := e) 5 6
  exact (hsame.trans (Bool.or_false _)).symm.trans hbit

theorem Kept.storeBlock (h : Kept par [] n) (he : n.find hash = some e)
    (hclear : e.failed = false) (block : CBlock) (o : Checks) :
    Kept par [] (storeBlock proc n block hash o) := by
  rw [BlockIndex.storeBlock, he, Option.any_some]
  split_ifs with hdata hbad hblames
  · exact h
  · have hnodata : e.hasData = false := by simpa using hdata
    refine (h.fail hash fun e' he' => ?_).insertDirty hash
    cases he.symm.trans he'
    refine ⟨fun hx => ?_, fun hyes => absurd hyes (by simp [hnodata])⟩
    exact absurd (h.active.hasData he hx).1 (by simp [hnodata])
  · exact h
  · cases o.position with
    | none => exact h
    | some pos =>
      refine h.receivedBlockTransactions he (by simpa using hdata) hclear ?_ pos
      rintro hnil
      simp [hnil] at hbad

theorem Kept.acceptBlock (h : Kept par [] n) (block : CBlock) (o : Checks) :
    Kept par [] (acceptBlock par proc n block o) := by
  unfold BlockIndex.acceptBlock
  dsimp only
  cases hprev : checkPrev par n block o with
  | false => exact h
  | true =>
    rw [if_neg (by simp)]
    cases he : n.find (hashOf par block) with
    | some e =>
      dsimp only
      split_ifs with hfailed
      · exact h
      · exact h.storeBlock he (by simpa using hfailed) block o
    | none =>
      dsimp only
      split_ifs with hheader
      · have hgenesis : (hashOf par block == hashOf par par.genesis) = false := by
          rw [beq_eq_false_iff_ne]
          intro heq
          have hsome := h.tree.genesis
          rw [← heq] at hsome
          exact absurd he (Option.isSome_iff_ne_none.mp hsome)
        obtain ⟨ep, hep⟩ : ∃ ep, n.find block.hashPrevBlock = some ep := by
          cases hfind : n.find block.hashPrevBlock with
          | some ep => exact ⟨ep, rfl⟩
          | none => simp [checkPrev, hgenesis, hfind] at hprev
        have hfresh := Entry.fresh_newEntry par proc n.mapBlockIndex block o.hashProofOfStake
        exact (h.addToBlockIndex he hep o.hashProofOfStake).storeBlock
          (find_addToBlockIndex par proc n block o.hashProofOfStake) hfresh.failed block o
      · exact h

/-! The best chain. -/

theorem Active.tip_eq (h : Active n) : n.tip = none ∧ n.chainActive = [] ∨
    n.tip = some n.bestBlock ∧ (n.find n.bestBlock).isSome ∧
      n.chainActive = (lineOf n.mapBlockIndex n.bestBlock).reverse := by
  rcases h with ⟨hnil, -⟩ | ⟨hfind, hline, -⟩
  · exact .inl ⟨by rw [Node.tip, hnil]; rfl, hnil⟩
  · refine .inr ⟨?_, hfind, hline⟩
    rw [Node.tip, hline, List.getLast?_reverse, lineOf]
    cases (n.mapBlockIndex.find n.bestBlock).elim 0 (·.nHeight) with
    | zero => rfl
    | succ k =>
      rw [line]
      cases parent n.mapBlockIndex n.bestBlock <;> rfl

theorem Kept.contains (h : Kept par pending n) (hx : hash ∈ n.chainActive) :
    n.contains hash = true := by
  rcases h.active with ⟨hnil, -⟩ | ⟨hfind, hline, -⟩
  · exact absurd (hnil ▸ hx) List.not_mem_nil
  · obtain ⟨eb, heb⟩ := Option.isSome_iff_exists.mp hfind
    have hmem : hash ∈ lineOf n.mapBlockIndex n.bestBlock := List.mem_reverse.mp (hline ▸ hx)
    obtain ⟨e, he⟩ := h.tree.find_of_mem_lineOf heb hmem
    obtain ⟨i, hi⟩ := List.mem_iff_getElem?.mp hmem
    have hheight := h.tree.height_getElem? heb hi he
    have hlength := h.tree.length_lineOf heb
    have hfinde : n.find hash = some e := he
    rw [Node.contains, hfinde, Option.any_some, hline, List.getElem?_reverse (by omega), hlength,
      show eb.nHeight + 1 - 1 - e.nHeight = i by omega, hi]
    exact beq_self_eq_true _

theorem Kept.setTip (h : Kept par pending n) (he : n.find hash = some e)
    (hall : ∀ x ∈ lineOf n.mapBlockIndex hash, ∀ ex, n.find x = some ex →
      ex.hasData = true ∧ ex.failed = false) : Kept par pending (setTip n hash) := by
  refine ⟨h.tree, h.ok, h.linked, h.candidate, h.blamed, .inr ⟨?_, rfl, fun x hx => ?_⟩⟩
  · exact Option.isSome_iff_exists.mpr ⟨e, he⟩
  · exact hall x (List.mem_reverse.mp hx)

theorem Kept.pruneBlockIndexCandidates (h : Kept par pending n) :
    Kept par pending (pruneBlockIndexCandidates proc n) :=
  h.candidates _ fun _ hx => (List.mem_filter.mp hx).1

theorem Kept.disconnectTip (h : Kept par pending n) : Kept par pending (disconnectTip n) := by
  unfold BlockIndex.disconnectTip
  cases hp : n.tip.bind (parent n.mapBlockIndex) with
  | none => exact h
  | some p =>
    dsimp only
    rcases h.active.tip_eq with ⟨htip, -⟩ | ⟨htip, hfind, hline⟩
    · rw [htip] at hp
      cases hp
    · obtain ⟨eb, heb⟩ := Option.isSome_iff_exists.mp hfind
      rw [htip, Option.bind_some, parent_of_find heb] at hp
      obtain ⟨ep, hep, -⟩ := h.tree.forest.find_pprev heb hp
      refine h.setTip hep fun x hx ex hex => h.active.hasData hex ?_
      rw [hline, List.mem_reverse, h.tree.mem_lineOf_iff heb]
      exact .inr ⟨p, hp, hx⟩

/-- A block under another one on a line is on the line of that one. -/
theorem Tree.mem_lineOf_of_append {m : BlockMap} (h : Tree par m) (he : m.find hash = some e)
    {above below : List Uint256} {x y : Uint256} (hline : lineOf m hash = above ++ x :: below)
    (hy : y ∈ above) : x ∈ lineOf m y := by
  revert above
  refine h.forest.induct (P := fun hash _ => ∀ {above}, lineOf m hash = above ++ x :: below →
    y ∈ above → x ∈ lineOf m y) (fun hash e he ih above hline hy => ?_) he
  cases above with
  | nil => exact absurd hy List.not_mem_nil
  | cons a above =>
    have hmem : x ∈ lineOf m hash := by simp [hline]
    rw [h.lineOf_eq he, List.cons_append, List.cons.injEq] at hline
    obtain ⟨rfl, hrest⟩ := hline
    rcases List.mem_cons.mp hy with rfl | hy
    · exact hmem
    · cases hp : e.pprev with
      | none => simp [hp] at hrest
      | some p =>
        obtain ⟨ep, hep, -⟩ := h.forest.find_pprev he hp
        rw [hp, Option.elim_some] at hrest
        exact ih p ep hp hep hrest hy

theorem Blamed.of_mem {m : BlockMap} (htree : Tree par m) (he : m.find hash = some e)
    {x : Uint256} (hx : x ∈ lineOf m hash) (h : Blamed m x) : Blamed m hash :=
  h.imp fun _ hy => ⟨(htree.lineOf_suffix he hx).mem hy.1, hy.2⟩

/-- A failure blames the line: by itself, or by what it is above of. -/
theorem Kept.blamed_of_failed (h : Kept par pending n) (he : n.find hash = some e)
    (hf : e.failed = true) : Blamed n.mapBlockIndex hash := by
  rw [Entry.failed_eq, Bool.or_eq_true] at hf
  rcases hf with hf | hf
  · exact ⟨hash, h.tree.self_mem_lineOf he, e, he, hf⟩
  · exact h.blamed hash e he hf

/-- The blocks above a failed one are marked. -/
theorem Kept.markAll (h : Kept par [] n) (younger : List Uint256)
    (hall : ∀ y ∈ younger, y ∉ n.chainActive ∧ Blamed n.mapBlockIndex y ∧
      ∀ e, n.find y = some e → e.nChainTx ≠ 0) :
    Kept par [] { n with mapBlockIndex := markChain n.mapBlockIndex younger } := by
  induction younger generalizing n with
  | nil => exact ⟨h.1, h.2, h.3, h.4, h.5, h.6⟩
  | cons y younger ih =>
    obtain ⟨hoff, hblame, hnumber⟩ := hall y List.mem_cons_self
    have hquiet (e : Entry) : Quiet e (e.addStatus blockFailedChild) :=
      quiet_addStatus (i := 6) e (by decide)
    have hnext : Kept par [] (n.modify y (·.addStatus blockFailedChild)) :=
      h.modify (fun e _ => hquiet e) (fun _ _ _ => .inr hblame)
        (fun e he _ => .inr ⟨hoff, fun _ => hnumber e he⟩)
    have hs : SameTree n.mapBlockIndex (n.modify y (·.addStatus blockFailedChild)).mapBlockIndex :=
      .of_modify _ _ fun e _ => rfl
    have hrest := ih hnext fun z hz => ?_
    · exact ⟨hrest.1, hrest.2, hrest.3, hrest.4, hrest.5, hrest.6⟩
    · obtain ⟨hoffz, hblamez, hnumberz⟩ := hall z (List.mem_cons_of_mem _ hz)
      refine ⟨hoffz, hblamez.congr hs fun x ex hex hf => ?_, fun e he => ?_⟩
      · have hfindx : n.find x = some ex := hex
        change ∃ ex', (n.modify y _).find x = some ex' ∧ _
        rw [Node.find_modify]
        split_ifs with hxy
        · rw [← hxy, hfindx, Option.map_some]
          exact ⟨_, rfl, (hquiet ex).failedValid hf⟩
        · exact ⟨ex, hfindx, hf⟩
      · rcases Node.find_modify_cases he with ⟨rfl, v, hv, rfl⟩ | ⟨-, he⟩
        · exact hnumberz v hv
        · exact hnumberz e he

theorem mem_of_bestCandidate (h : bestCandidate proc n = some hash) :
    hash ∈ n.setBlockIndexCandidates := by
  have hfold (f : Option Uint256 → Uint256 → Option Uint256)
      (hf : ∀ best x, f best x = some x ∨ f best x = best) (l : List Uint256)
      (best : Option Uint256) (hash : Uint256) (h : l.foldl f best = some hash) : hash ∈ l ∨ best = some hash := by
    induction l generalizing best with
    | nil => exact .inr h
    | cons x l ih =>
      rw [List.foldl_cons] at h
      rcases ih _ h with hmem | hbest
      · exact .inl (List.mem_cons_of_mem x hmem)
      · rcases hf best x with hx | hsame
        · cases hx.symm.trans hbest
          exact .inl List.mem_cons_self
        · exact .inr (hsame.symm.trans hbest)
  unfold bestCandidate at h
  refine (hfold _ (fun best x => ?_) _ none hash h).resolve_right (by simp)
  cases best with
  | none => exact .inl rfl
  | some b =>
    dsimp only
    split_ifs
    · exact .inl rfl
    · exact .inr rfl

/-- The first unusable block under a candidate has failed, since the whole line was received. -/
theorem Kept.dropChain (h : Kept par [] n) {pindexNew pindexTest : Uint256}
    (hnew : pindexNew ∈ n.setBlockIndexCandidates)
    (htest : (offChain n pindexNew).find? (unusable n) = some pindexTest) :
    Kept par [] (dropChain n pindexTest ((offChain n pindexNew).takeWhile (· ≠ pindexTest))) ∧
      (n.find pindexTest).any Entry.failed = true := by
  obtain ⟨e, he, hne⟩ := h.candidate pindexNew hnew
  have hoff {y} (hy : y ∈ offChain n pindexNew) :
      y ∈ lineOf n.mapBlockIndex pindexNew ∧ y ∉ n.chainActive := by
    refine ⟨List.takeWhile_subset _ hy, fun hactive => ?_⟩
    have hnot := List.mem_takeWhile_imp hy
    simp [h.contains hactive] at hnot
  have hmem := (hoff (List.mem_of_find?_eq_some htest)).1
  obtain ⟨et, het⟩ := h.tree.find_of_mem_lineOf he hmem
  have hfindt : n.find pindexTest = some et := het
  have hfailed : et.failed = true := by
    have hdata := (h.linked.received_iff h.tree h.ok he).mp hne pindexTest hmem et het
    have hunusable := List.find?_some htest
    rw [unusable, hfindt, Option.all_some, hdata] at hunusable
    simpa using hunusable
  have hany : (n.find pindexTest).any Entry.failed = true := by
    rw [hfindt]
    exact hfailed
  refine ⟨?_, hany⟩
  have hblamed := h.blamed_of_failed hfindt hfailed
  obtain ⟨below, hbelow⟩ : ∃ below, lineOf n.mapBlockIndex pindexNew =
      (offChain n pindexNew).takeWhile (· ≠ pindexTest) ++ pindexTest :: below := by
    obtain ⟨rest, hrest⟩ := List.takeWhile_prefix (l := lineOf n.mapBlockIndex pindexNew)
      (fun x => !n.contains x)
    obtain ⟨above, below, hsplit, hnot⟩ :=
      List.eq_append_cons_of_mem (List.mem_of_find?_eq_some htest)
    have habove : (offChain n pindexNew).takeWhile (· ≠ pindexTest) = above := by
      rw [hsplit, List.takeWhile_append_of_pos, List.takeWhile_cons_of_neg, List.append_nil]
      · simp
      · intro x hx
        simpa using fun hxt : x = pindexTest => hnot (hxt ▸ hx)
    refine ⟨below ++ rest, ?_⟩
    rw [habove, ← hrest]
    change offChain n pindexNew ++ rest = _
    rw [hsplit, List.append_assoc, List.cons_append]
  have hmark := h.markAll ((offChain n pindexNew).takeWhile (· ≠ pindexTest))
    fun y hy => by
      have hyoff := hoff (List.takeWhile_subset _ hy)
      obtain ⟨ey, hey⟩ := h.tree.find_of_mem_lineOf he hyoff.1
      refine ⟨hyoff.2, hblamed.of_mem h.tree hey (h.tree.mem_lineOf_of_append he hbelow hy), ?_⟩
      exact fun ex hex => h.linked.line_received h.tree h.ok he hne hyoff.1 hex
  have hkept := hmark.candidates (n.setBlockIndexCandidates.filter fun hash =>
    !(pindexTest :: (offChain n pindexNew).takeWhile (· ≠ pindexTest)).contains hash)
    fun x hx => (List.mem_filter.mp hx).1
  unfold BlockIndex.dropChain
  simp only [hany]
  exact ⟨hkept.1, hkept.2, hkept.3, hkept.4, hkept.5, hkept.6⟩

theorem Kept.findMostWorkChain (h : Kept par [] n) : Kept par [] (findMostWorkChain proc n) := by
  have hloop (k : ℕ) (n : Node) (h : Kept par [] n) : Kept par [] (findMostWorkLoop proc k n) := by
    induction k generalizing n with
    | zero => exact h
    | succ k ih =>
      rw [findMostWorkLoop]
      cases hnew : bestCandidate proc n with
      | none => exact h
      | some pindexNew =>
        dsimp only
        cases htest : (offChain n pindexNew).find? (unusable n) with
        | none => exact h
        | some pindexTest => exact ih _ (h.dropChain (mem_of_bestCandidate hnew) htest).1
  exact hloop _ n h

theorem connectable_iff : connectable n hash = true ↔
    ∃ e, n.find hash = some e ∧ e.pprev = n.tip ∧ e.hasData = true ∧ e.failed = false := by
  rw [connectable, Option.any_eq_true]
  simp only [Bool.and_eq_true, beq_iff_eq, Bool.not_eq_true', and_assoc]

/-- A block that follows the tip is off the chain, and its line is the chain and itself. -/
theorem Kept.line_of_connectable (h : Kept par [] n) (he : n.find hash = some e)
    (hp : e.pprev = n.tip) : hash ∉ n.chainActive ∧
      ∀ x ∈ lineOf n.mapBlockIndex hash, x = hash ∨ x ∈ n.chainActive := by
  rcases h.active.tip_eq with ⟨htip, hnil⟩ | ⟨htip, hfind, hline⟩
  · refine ⟨hnil ▸ List.not_mem_nil, fun x hx => ?_⟩
    rcases (h.tree.mem_lineOf_iff he).mp hx with rfl | ⟨p, hp', -⟩
    · exact .inl rfl
    · cases (htip ▸ hp).symm.trans hp'
  · obtain ⟨eb, heb⟩ := Option.isSome_iff_exists.mp hfind
    rw [htip] at hp
    obtain ⟨eb', heb', hnext⟩ := h.tree.forest.find_pprev he hp
    cases heb.symm.trans heb'
    refine ⟨fun hx => ?_, fun x hx => ?_⟩
    · rw [hline, List.mem_reverse] at hx
      obtain ⟨i, hi⟩ := List.mem_iff_getElem?.mp hx
      have hheight := h.tree.height_getElem? heb hi he
      omega
    · rcases (h.tree.mem_lineOf_iff he).mp hx with rfl | ⟨p, hp', hx⟩
      · exact .inl rfl
      · cases hp.symm.trans hp'
        exact .inr (hline ▸ List.mem_reverse.mpr hx)

theorem Kept.setTip_connectable (h : Kept par [] n) (he : n.find hash = some e)
    (hp : e.pprev = n.tip) (hdata : e.hasData = true) (hclear : e.failed = false) :
    Kept par [] (BlockIndex.setTip n hash) := by
  refine h.setTip he fun x hx ex hex => ?_
  rcases (h.line_of_connectable he hp).2 x hx with rfl | hx
  · cases he.symm.trans hex
    exact ⟨hdata, hclear⟩
  · exact h.active.hasData hex hx

theorem find_writeBlockIndex (n : Node) (hash x : Uint256) :
    (writeBlockIndex par n hash).find x = n.find x := by
  unfold writeBlockIndex
  split <;> rfl

theorem Kept.writeBlockIndex (h : Kept par pending n) (hash : Uint256) :
    Kept par pending (writeBlockIndex par n hash) := by
  unfold BlockIndex.writeBlockIndex
  split
  · exact h
  · exact ⟨h.1, h.2, h.3, h.4, h.5, h.6⟩

theorem Kept.writeSums (h : Kept par pending n) (hash : Uint256) (minted : CAmount) :
    Kept par pending (writeSums par n hash minted) := by
  refine Kept.writeBlockIndex (h.modify (fun e _ => quiet_summed _ minted e) ?_ ?_) hash
  · exact fun e _ hbit => .inl hbit
  · exact fun e _ hf => .inl hf

theorem Kept.raiseScripts (h : Kept par pending n) (he : n.find hash = some e)
    (hdata : e.hasData = true) (nUndoPos : ℕ) :
    Kept par pending (raiseScripts n hash nUndoPos) := by
  unfold BlockIndex.raiseScripts
  split_ifs
  · exact h
  · refine Kept.insertDirty (h.modify (fun e' he' => ?_) ?_ ?_) hash
    · cases he.symm.trans he'
      exact quiet_connected hdata nUndoPos
    · intro e' _ hbit
      rw [Entry.testBit_connected nUndoPos (by decide) (by decide)] at hbit
      exact .inl hbit
    · intro e' _ hf
      rw [Entry.failed_connected] at hf
      exact .inl hf

theorem chainActive_writeSums (par : Params) (n : Node) (hash : Uint256) (minted : CAmount) :
    (writeSums par n hash minted).chainActive = n.chainActive := by
  unfold writeSums writeBlockIndex
  split <;> rfl

theorem find_writeSums (par : Params) (he : n.find hash = some e) (minted : CAmount) :
    (writeSums par n hash minted).find hash = some (e.summed n.mapBlockIndex minted) := by
  rw [writeSums, find_writeBlockIndex, Node.find_modify, if_pos rfl, he, Option.map_some]

theorem chainActive_raiseScripts (n : Node) (hash : Uint256) (nUndoPos : ℕ) :
    (raiseScripts n hash nUndoPos).chainActive = n.chainActive := by
  unfold raiseScripts
  split_ifs <;> rfl

theorem find_raiseScripts (he : n.find hash = some e) (nUndoPos : ℕ) :
    ∃ e', (raiseScripts n hash nUndoPos).find hash = some e' ∧ e'.pprev = e.pprev ∧
      e'.hasData = e.hasData ∧ e'.failed = e.failed := by
  unfold raiseScripts
  split_ifs
  · exact ⟨e, he, rfl, rfl, rfl⟩
  · obtain ⟨hpprev, hdata, -, -⟩ := Entry.of_core (Entry.core_connected (e := e) nUndoPos)
    refine ⟨e.connected nUndoPos, ?_, hpprev, hdata, Entry.failed_connected nUndoPos⟩
    change (n.modify hash _).find hash = _
    rw [Node.find_modify, if_pos rfl, he, Option.map_some]

/-- A block that follows the tip is blamed. -/
theorem Kept.invalidBlockFound (h : Kept par [] n) (he : n.find hash = some e)
    (hp : e.pprev = n.tip) (hdata : e.hasData = true) :
    Kept par [] (invalidBlockFound n hash) := by
  obtain ⟨hoff, hline⟩ := h.line_of_connectable he hp
  have hnumber : e.nChainTx ≠ 0 := by
    refine (h.linked.received_iff h.tree h.ok he).mpr fun x hx ex hex => ?_
    rcases hline x hx with rfl | hx
    · cases he.symm.trans hex
      exact hdata
    · exact (h.active.hasData hex hx).1
  have hfail := h.fail hash fun e' he' => by
    cases he.symm.trans he'
    exact ⟨hoff, fun _ => hnumber⟩
  exact (hfail.insertDirty hash).candidates _ fun x hx => (List.mem_filter.mp hx).1

theorem Kept.connectTip (h : Kept par [] n) (hash : Uint256) (c : Connection) :
    Kept par [] (connectTip par proc n hash c) := by
  unfold BlockIndex.connectTip
  cases hc : connectable n hash with
  | false => exact h
  | true =>
    rw [if_neg (by simp)]
    obtain ⟨e, he, hp, hdata, hclear⟩ := connectable_iff.mp hc
    have htip (minted : CAmount) : (BlockIndex.writeSums par n hash minted).tip = n.tip :=
      congrArg List.getLast? (chainActive_writeSums par n hash minted)
    cases c with
    | refused minted blames =>
      cases minted with
      | none =>
        dsimp only [Option.elim_none]
        split_ifs
        · exact h.invalidBlockFound he hp hdata
        · exact h
      | some minted =>
        dsimp only [Option.elim_some]
        split_ifs
        · exact (h.writeSums hash minted).invalidBlockFound (find_writeSums par he minted)
            (hp.trans (htip minted).symm) hdata
        · exact h.writeSums hash minted
    | connected minted nUndoPos =>
      have hsums := h.writeSums hash minted
      have hfind := find_writeSums par he minted
      obtain ⟨e', he', hp', hdata', hclear'⟩ := find_raiseScripts hfind nUndoPos
      have hscripts := hsums.raiseScripts hfind hdata nUndoPos
      refine Kept.pruneBlockIndexCandidates (hscripts.setTip_connectable he' ?_
        (hdata'.trans hdata) (hclear'.trans hclear))
      rw [hp', Node.tip, chainActive_raiseScripts]
      exact hp.trans (htip minted).symm
    | genesis => exact Kept.pruneBlockIndexCandidates (h.setTip_connectable he hp hdata hclear)

theorem Kept.flushStateToDisk (h : Kept par pending n) :
    Kept par pending (flushStateToDisk par n) := by
  have hfold (l : List Uint256) (n : Node) (h : Kept par pending n) :
      Kept par pending (l.foldl (BlockIndex.writeBlockIndex par) n) := by
    induction l generalizing n with
    | nil => exact h
    | cons x l ih => exact ih _ (h.writeBlockIndex x)
  have hall := hfold n.setDirtyBlockIndex n h
  exact ⟨hall.1, hall.2, hall.3, hall.4, hall.5, hall.6⟩

theorem Kept.step (h : Kept par [] n) (ev : Event) : Kept par [] (step par proc n ev) := by
  cases ev with
  | acceptBlock block o => exact h.acceptBlock block o
  | findMostWorkChain => exact h.findMostWorkChain
  | connectTip hash c => exact h.connectTip hash c
  | disconnectTip => exact h.disconnectTip
  | flushStateToDisk => exact h.flushStateToDisk

theorem fixed_genesis (par : Params) (proc : Process) :
    (newEntry par proc Dict.empty par.genesis 0).fixed =
      { (entryOf par.genesis).fixed with nChainWork := getBlockProof par.genesis.nBits } := by
  simp only [newEntry, Dict.find_empty]
  rw [Entry.fixed_raiseValidity]
  rfl

theorem Kept.genesis (par : Params) (proc : Process) :
    Kept par [] (BlockIndex.addToBlockIndex par proc {} par.genesis 0) := by
  have hfresh := Entry.fresh_newEntry par proc Dict.empty par.genesis 0
  have hfixed := fixed_genesis par proc
  unfold BlockIndex.addToBlockIndex
  dsimp only
  generalize newEntry par proc Dict.empty par.genesis 0 = e at hfresh hfixed ⊢
  have hpprev : e.pprev = none := congrArg Entry.pprev hfixed
  have hheight : e.nHeight = 0 := congrArg Entry.nHeight hfixed
  have hpskip : e.pskip = none := congrArg Entry.pskip hfixed
  have hbits : e.nBits = par.genesis.nBits := congrArg Entry.nBits hfixed
  have hwork : e.nChainWork = getBlockProof par.genesis.nBits := congrArg Entry.nChainWork hfixed
  have hkeyed : e.getBlockHash par = hashOf par par.genesis := by
    have hhash := congrArg (Entry.getBlockHash par) hfixed
    refine hhash.trans ?_
    rw [hashOf, par.genesis_prev]
    rfl
  generalize hash : hashOf par par.genesis = g at hkeyed
  have honly {x ex} (hx : (Dict.empty.set g e).find x = some ex) : x = g ∧ ex = e := by
    rcases Dict.find_set_cases hx with hx | ⟨-, hx⟩
    · exact hx
    · rw [Dict.find_empty] at hx
      cases hx
  have hnode : Kept par [] { ({} : Node) with mapBlockIndex := Dict.empty.set g e } := by
    refine ⟨⟨?_, fun x ex hx => ?_, fun x ex hx => ?_, fun x ex hx => ?_, fun x ex hx => ?_⟩,
      fun x ex hx => ?_, ⟨fun x ex hx _ => ?_, fun x ex p ep hx hp => ?_, fun p x hx => ?_,
        fun x hx => ?_, fun x ex hx _ hdata => ?_⟩, fun x hx => ?_, fun x ex hx hbit => ?_,
      .inl ⟨rfl, rfl⟩⟩
    · rw [hash]
      exact Option.isSome_iff_exists.mpr ⟨e, Dict.find_set_self _ _ _⟩
    · obtain ⟨rfl, rfl⟩ := honly hx
      exact .inl ⟨hash.symm, hpprev, hheight⟩
    · obtain ⟨rfl, rfl⟩ := honly hx
      exact hkeyed
    · obtain ⟨rfl, rfl⟩ := honly hx
      rw [nChainWorkBelow, hpprev, hwork, hbits]
      exact (BitVec.zero_add _).symm
    · obtain ⟨rfl, rfl⟩ := honly hx
      rw [hpskip, skipTarget, hpprev]
      rfl
    · obtain ⟨rfl, rfl⟩ := honly hx
      exact hfresh.ok
    · obtain ⟨rfl, rfl⟩ := honly hx
      rw [hfresh.nChainTx, numbered, hfresh.hasData]
      rfl
    · obtain ⟨rfl, rfl⟩ := honly hx
      cases hpprev.symm.trans hp
    · exact absurd hx List.not_mem_nil
    · exact absurd hx List.not_mem_nil
    · obtain ⟨rfl, rfl⟩ := honly hx
      cases hfresh.hasData.symm.trans hdata
    · exact absurd hx List.not_mem_nil
    · obtain ⟨rfl, rfl⟩ := honly hx
      rw [hfresh.status] at hbit
      exact absurd hbit (by decide)
  unfold Node.insertStake
  split_ifs
  · exact ⟨hnode.1, hnode.2, hnode.3, hnode.4, hnode.5, hnode.6⟩
  · exact ⟨hnode.1, hnode.2, hnode.3, hnode.4, hnode.5, hnode.6⟩

theorem Kept.initBlockIndex (par : Params) (proc : Process) (pos : DiskPos) :
    Kept par [] (initBlockIndex par proc pos) := by
  have hfresh := Entry.fresh_newEntry par proc Dict.empty par.genesis 0
  exact (Kept.genesis par proc).receivedBlockTransactions
    (find_addToBlockIndex par proc {} par.genesis 0) hfresh.hasData hfresh.failed par.genesis_vtx
    pos

theorem Kept.run (par : Params) (proc : Process) (pos : DiskPos) (evs : List Event) :
    Kept par []
      (Runs.run (BlockIndex.step par proc) (BlockIndex.initBlockIndex par proc pos) evs) :=
  Runs.run_preserves (fun _ ev h => h.step ev) (Kept.initBlockIndex par proc pos) evs

end Kept


/-! The records. -/

section Saved

variable {par : Params} {proc : Process} {n : Node} {hash : Uint256} {e : Entry}
  {queue dirty : List Uint256} {f : Entry → Entry}

theorem Saved.mono (h : Saved dirty n) {dirty' : List Uint256} (hsub : ∀ x ∈ dirty, x ∈ dirty') :
    Saved dirty' n :=
  ⟨fun x ex hx hnot => h.record x ex hx fun hmem => hnot (hsub x hmem), h.known⟩

/-- An entry that is assigned to is dirty afterwards, or its record says the same. -/
theorem Saved.modify (h : Saved dirty n) (hash : Uint256) (f : Entry → Entry)
    (hf : ∀ e, n.find hash = some e → hash ∈ dirty ∨ marked (f e).disk = marked e.disk) :
    Saved dirty (n.modify hash f) := by
  refine ⟨fun x ex hx hnot => ?_, fun x hx => ?_⟩
  · rcases Node.find_modify_cases hx with ⟨rfl, v, hv, rfl⟩ | ⟨-, hx⟩
    · obtain ⟨d, hd, hmarked⟩ := h.record x v hv hnot
      exact ⟨d, hd, hmarked.trans ((hf v hv).resolve_left hnot).symm⟩
    · exact h.record x ex hx hnot
  · rw [Node.find_modify]
    split_ifs with hxh
    · rw [Option.isSome_map, ← hxh]
      exact h.known x hx
    · exact h.known x hx

theorem mem_insertDirty (n : Node) (hash x : Uint256) :
    x ∈ (n.insertDirty hash).setDirtyBlockIndex ↔ x = hash ∨ x ∈ n.setDirtyBlockIndex := by
  rw [Node.insertDirty]
  dsimp only
  split_ifs with hmem
  · exact ⟨.inr, fun hx => hx.elim (fun hx => hx ▸ hmem) id⟩
  · exact List.mem_cons

/-- All entries but the dirty ones have their records. -/
abbrev Recorded (n : Node) : Prop := Saved n.setDirtyBlockIndex n

theorem Saved.insertDirty (h : Saved (hash :: n.setDirtyBlockIndex) n) :
    Recorded (n.insertDirty hash) := by
  have hmore := h.mono fun x hx => (mem_insertDirty n hash x).mpr (List.mem_cons.mp hx)
  exact ⟨hmore.1, hmore.2⟩

theorem Recorded.modify_insertDirty (h : Recorded n) (hash : Uint256) (f : Entry → Entry) :
    Recorded ((n.modify hash f).insertDirty hash) := by
  refine Saved.insertDirty (Saved.modify (h.mono fun x hx => ?_) hash f fun e _ => .inl ?_)
  · exact List.mem_cons_of_mem hash hx
  · exact List.mem_cons_self

theorem Recorded.linkBlock (h : Recorded n) (hash : Uint256) :
    Recorded (linkBlock proc n hash) := by
  have hmodify := Saved.modify h hash (·.linked n.mapBlockIndex n.nBlockSequenceId)
    fun e _ => .inr rfl
  unfold BlockIndex.linkBlock
  dsimp only
  split
  · exact ⟨hmodify.1, hmodify.2⟩
  · split_ifs
    · exact ⟨hmodify.1, hmodify.2⟩
    · exact ⟨hmodify.1, hmodify.2⟩

theorem Recorded.linkQueue (k : ℕ) (h : Recorded n) (queue : List Uint256) :
    Recorded (linkQueue proc k queue n) := by
  induction k generalizing queue n with
  | zero => exact h
  | succ k ih =>
    cases queue with
    | nil => exact h
    | cons hash queue =>
      rw [BlockIndex.linkQueue]
      refine ih ?_ _
      have hlink : Recorded (BlockIndex.linkBlock proc n hash) := h.linkBlock hash
      exact ⟨hlink.1, hlink.2⟩

theorem Recorded.receivedBlockTransactions (h : Recorded n) (block : CBlock) (hash : Uint256)
    (pos : DiskPos) : Recorded (receivedBlockTransactions proc n block hash pos) := by
  have hmodify := h.modify_insertDirty hash (·.received block pos)
  unfold BlockIndex.receivedBlockTransactions
  dsimp only
  split
  · exact hmodify.linkQueue _ _
  · split_ifs
    · exact hmodify.linkQueue _ _
    · exact ⟨hmodify.1, hmodify.2⟩
    · exact hmodify

theorem Recorded.addToBlockIndex (h : Recorded n) (block : CBlock) (hashProofOfStake : Uint256) :
    Recorded (addToBlockIndex par proc n block hashProofOfStake) := by
  unfold BlockIndex.addToBlockIndex
  dsimp only
  generalize newEntry par proc n.mapBlockIndex block hashProofOfStake = e
  have hset : Saved (hashOf par block :: n.setDirtyBlockIndex)
      { n with mapBlockIndex := n.mapBlockIndex.set (hashOf par block) e } := by
    refine ⟨fun x ex hx hnot => ?_, fun x hx => ?_⟩
    · rw [List.mem_cons, not_or] at hnot
      rcases Dict.find_set_cases hx with ⟨rfl, -⟩ | ⟨-, hx⟩
      · exact absurd rfl hnot.1
      · exact h.record x ex hx hnot.2
    · change ((n.mapBlockIndex.set _ e).find x).isSome
      rw [Dict.find_set]
      split_ifs
      · rfl
      · exact h.known x hx
  refine Saved.insertDirty ?_
  unfold Node.insertStake
  split_ifs
  · exact ⟨hset.1, hset.2⟩
  · exact hset

theorem Recorded.storeBlock (h : Recorded n) (block : CBlock) (hash : Uint256) (o : Checks) :
    Recorded (storeBlock proc n block hash o) := by
  unfold BlockIndex.storeBlock
  split_ifs
  · exact h
  · exact h.modify_insertDirty hash _
  · exact h
  · cases o.position with
    | none => exact h
    | some pos => exact h.receivedBlockTransactions block hash pos

theorem Recorded.acceptBlock (h : Recorded n) (block : CBlock) (o : Checks) :
    Recorded (acceptBlock par proc n block o) := by
  unfold BlockIndex.acceptBlock
  dsimp only
  cases checkPrev par n block o with
  | false => exact h
  | true =>
    rw [if_neg (by simp)]
    cases n.find (hashOf par block) with
    | some e =>
      dsimp only
      split_ifs
      · exact h
      · exact h.storeBlock block _ o
    | none =>
      dsimp only
      split_ifs
      · exact (h.addToBlockIndex block o.hashProofOfStake).storeBlock block _ o
      · exact h

theorem marked_addStatus (e : Entry) :
    marked (e.addStatus blockFailedChild).disk = marked e.disk := by
  have hor : e.nStatus ||| 64 ||| 64 = e.nStatus ||| 64 := by
    rw [Nat.or_assoc, Nat.or_self]
  exact congrArg (fun s => ({ e.disk with nStatus := s } : CDiskBlockIndex)) hor

theorem Recorded.markChain (h : Recorded n) (younger : List Uint256) :
    Recorded { n with mapBlockIndex := markChain n.mapBlockIndex younger } := by
  induction younger generalizing n with
  | nil => exact ⟨h.1, h.2⟩
  | cons y younger ih =>
    have hmodify := Saved.modify h y (·.addStatus blockFailedChild)
      fun e _ => .inr (marked_addStatus e)
    have hrest := ih (n := n.modify y (·.addStatus blockFailedChild)) hmodify
    exact ⟨hrest.1, hrest.2⟩

theorem Recorded.findMostWorkChain (h : Recorded n) : Recorded (findMostWorkChain proc n) := by
  have hloop (k : ℕ) (n : Node) (h : Recorded n) : Recorded (findMostWorkLoop proc k n) := by
    induction k generalizing n with
    | zero => exact h
    | succ k ih =>
      rw [findMostWorkLoop]
      split
      · exact h
      · split
        · exact h
        · refine ih _ ?_
          rename_i pindexTest _
          generalize List.takeWhile _ _ = younger
          have hmark := h.markChain younger
          unfold dropChain
          cases (n.find pindexTest).any Entry.failed with
          | true => exact ⟨hmark.1, hmark.2⟩
          | false => exact ⟨h.1, h.2⟩
  exact hloop _ n h

/-- A written entry has its record. -/
theorem Saved.write (h : Saved (hash :: dirty) n) (hkept : Kept par [] n) :
    Saved dirty (writeBlockIndex par n hash) := by
  unfold writeBlockIndex
  cases he : n.find hash with
  | none =>
    refine ⟨fun x ex hx hnot => h.record x ex hx fun hmem => ?_, h.known⟩
    rcases List.mem_cons.mp hmem with rfl | hmem
    · cases he.symm.trans hx
    · exact hnot hmem
  | some e =>
    have hkey : e.disk.getBlockHash par.ctx = hash := hkept.tree.keyed hash e he
    have hstored := (hkept.ok hash e he).stored_disk
    dsimp only
    rw [hkey, hstored]
    refine ⟨fun x ex hx hnot => ?_, fun x hx => ?_⟩
    · change ∃ d, (n.blockTree.set hash e.disk).find x = some d ∧ _
      have hxe : n.find x = some ex := hx
      rw [Dict.find_set]
      split_ifs with hxh
      · subst hxh
        cases he.symm.trans hxe
        exact ⟨_, rfl, rfl⟩
      · exact h.record x ex hxe (by simp [hxh, hnot])
    · change (n.find x).isSome
      have hx' : ((n.blockTree.set hash e.disk).find x).isSome := hx
      rw [Dict.find_set] at hx'
      split_ifs at hx' with hxh
      · rw [hxh, he]
        rfl
      · exact h.known x hx'

theorem Recorded.writeSums (h : Recorded n) (hkept : Kept par [] n) (hash : Uint256)
    (minted : CAmount) : Recorded (writeSums par n hash minted) := by
  have hdirty : (BlockIndex.writeSums par n hash minted).setDirtyBlockIndex =
      n.setDirtyBlockIndex := by
    unfold BlockIndex.writeSums writeBlockIndex
    split <;> rfl
  rw [Recorded, hdirty]
  refine Saved.write ?_ (hkept.modify (fun e _ => quiet_summed _ minted e)
    (fun e _ hbit => .inl hbit) (fun e _ hf => .inl hf))
  exact (h.mono fun x hx => List.mem_cons_of_mem hash hx).modify hash _
    fun e _ => .inl List.mem_cons_self

theorem Recorded.raiseScripts (h : Recorded n) (hash : Uint256) (nUndoPos : ℕ) :
    Recorded (raiseScripts n hash nUndoPos) := by
  unfold BlockIndex.raiseScripts
  split_ifs
  · exact h
  · exact h.modify_insertDirty hash _

theorem Recorded.invalidBlockFound (h : Recorded n) (hash : Uint256) :
    Recorded (invalidBlockFound n hash) := by
  have hfail := h.modify_insertDirty hash (·.addStatus blockFailedValid)
  exact ⟨hfail.1, hfail.2⟩

theorem Recorded.connectTip (h : Recorded n) (hkept : Kept par [] n) (hash : Uint256)
    (c : Connection) : Recorded (connectTip par proc n hash c) := by
  unfold BlockIndex.connectTip
  cases connectable n hash with
  | false => exact h
  | true =>
    rw [if_neg (by simp)]
    cases c with
    | refused minted blames =>
      cases minted with
      | none =>
        dsimp only [Option.elim_none]
        split_ifs
        · exact h.invalidBlockFound hash
        · exact h
      | some minted =>
        dsimp only [Option.elim_some]
        split_ifs
        · exact (h.writeSums hkept hash minted).invalidBlockFound hash
        · exact h.writeSums hkept hash minted
    | connected minted nUndoPos =>
      have hscripts := (h.writeSums hkept hash minted).raiseScripts hash nUndoPos
      exact ⟨hscripts.1, hscripts.2⟩
    | genesis => exact ⟨h.1, h.2⟩

theorem Recorded.flushStateToDisk (h : Recorded n) (hkept : Kept par [] n) :
    Saved [] (flushStateToDisk par n) := by
  have hfold (l : List Uint256) (n : Node) (h : Saved l n) (hkept : Kept par [] n) :
      Saved [] (l.foldl (writeBlockIndex par) n) := by
    induction l generalizing n with
    | nil => exact h
    | cons x l ih => exact ih _ (h.write hkept) (hkept.writeBlockIndex x)
  have hall := hfold n.setDirtyBlockIndex n h hkept
  exact ⟨hall.1, hall.2⟩

theorem Recorded.step (h : Recorded n) (hkept : Kept par [] n) (ev : Event) :
    Recorded (step par proc n ev) := by
  cases ev with
  | acceptBlock block o => exact h.acceptBlock block o
  | findMostWorkChain => exact h.findMostWorkChain
  | connectTip hash c => exact h.connectTip hkept hash c
  | disconnectTip =>
    change Recorded (disconnectTip n)
    unfold disconnectTip
    split
    · exact h
    · exact ⟨h.1, h.2⟩
  | flushStateToDisk => exact h.flushStateToDisk hkept

theorem Recorded.run (par : Params) (proc : Process) (pos : DiskPos) (evs : List Event) :
    Recorded (Runs.run (BlockIndex.step par proc) (initBlockIndex par proc pos) evs) := by
  have hempty : Recorded ({} : Node) := by
    refine ⟨fun x ex hx => ?_, fun x hx => ?_⟩
    · cases (Dict.find_empty x).symm.trans hx
    · exact hx
  have hinit : Recorded (initBlockIndex par proc pos) :=
    (hempty.addToBlockIndex par.genesis 0).receivedBlockTransactions par.genesis _ pos
  exact (Runs.run_preserves (I := fun n => Kept par [] n ∧ Recorded n)
    (fun n ev h => ⟨h.1.step ev, h.2.step h.1 ev⟩) ⟨Kept.initBlockIndex par proc pos, hinit⟩
    evs).2

end Saved

section Checked

variable {par : Params} {n : Node} {hash : Uint256} {e : Entry}

/-- The assertions of `CheckBlockIndex` about one entry, without those on the work, the skip
pointer, the candidates and the levels above. -/
structure Checked (par : Params) (n : Node) (hash : Uint256) (e : Entry) : Prop where
  genesis : e.pprev = none → hash = hashOf par par.genesis
  data : e.hasData = true ↔ e.nTx ≠ 0
  transactions : blockValidTransactions ≤ e.level ↔ e.nTx ≠ 0
  missing : e.nChainTx ≠ 0 ↔
    ∀ x ∈ lineOf n.mapBlockIndex hash, ∀ ex, n.find x = some ex → ex.hasData = true
  height : ∀ p ep, e.pprev = some p → n.find p = some ep → e.nHeight = ep.nHeight + 1
  tree : blockValidTree ≤ e.level
  invalid : e.failed = true → Blamed n.mapBlockIndex hash
  waiting : ∀ p, e.pprev = some p → e.hasData = true → e.nChainTx = 0 →
    ¬Blamed n.mapBlockIndex hash → (p, hash) ∈ n.mapBlocksUnlinked
  unlinked : ∀ p, (p, hash) ∈ n.mapBlocksUnlinked → e.pprev = some p ∧ e.hasData = true

theorem Kept.checked (h : Kept par [] n) (he : n.find hash = some e) : Checked par n hash e where
  genesis hp := by
    rcases h.tree.rooted hash e he with ⟨hgenesis, -, -⟩ | ⟨p, ep, hpp, -, -⟩
    · exact hgenesis
    · cases hp.symm.trans hpp
  data := (h.ok hash e he).txs
  transactions := (h.ok hash e he).data.symm.trans (h.ok hash e he).txs
  missing := h.linked.received_iff h.tree h.ok he
  height p ep hp hep := by
    obtain ⟨ep', hep', hheight⟩ := h.tree.forest.find_pprev he hp
    rw [hheight, Option.some.inj (hep.symm.trans hep')]
  tree := (h.ok hash e he).tree
  invalid := h.blamed_of_failed he
  waiting p hp hdata hzero hsound := by
    obtain ⟨ep, hep, -⟩ := h.tree.forest.find_pprev he hp
    have hline : lineOf n.mapBlockIndex hash = hash :: lineOf n.mapBlockIndex p := by
      rw [h.tree.lineOf_eq he, hp, Option.elim_some]
    refine h.linked.waiting hash e p ep he hp hep hdata ?_ ?_
    · by_contra hne
      refine (h.linked.received_iff h.tree h.ok he).mpr (fun x hx ex hex => ?_) hzero
      rw [hline] at hx
      rcases List.mem_cons.mp hx with rfl | hx
      · rw [← Option.some.inj (he.symm.trans hex)]
        exact hdata
      · exact (h.linked.received_iff h.tree h.ok hep).mp hne x hx ex hex
    · refine Bool.eq_false_iff.mpr fun hfailed => hsound ?_
      obtain ⟨x, hx, ex, hex, hvalid⟩ := h.blamed_of_failed hep hfailed
      exact ⟨x, hline ▸ List.mem_cons_of_mem _ hx, ex, hex, hvalid⟩
  unlinked p hmem := by
    obtain ⟨e', he', hp, hdata⟩ := h.linked.genuine p hash hmem
    rw [Option.some.inj (he.symm.trans he')]
    exact ⟨hp, hdata⟩

def IndexChecked (par : Params) (n : Node) : Prop :=
  ∀ hash e, n.find hash = some e → Checked par n hash e

/-- In every state of a run the index passes these assertions. -/
theorem indexChecked_run (par : Params) (proc : Process) (pos : DiskPos) (evs : List Event) :
    IndexChecked par (Runs.run (step par proc) (initBlockIndex par proc pos) evs) :=
  fun _ _ he => (Kept.run par proc pos evs).checked he

end Checked

end Scrypta.BlockIndex
