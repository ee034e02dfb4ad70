import Mathlib.Data.List.Induction
import Scrypta.BlockTree
import Scrypta.Toolkit.Dict

/-! The blocks that a node has asked its peers for. Each peer has a queue of them, a map leads
from the hash of a block to its place in a queue, and counters follow the queues. -/

namespace Scrypta.Download

abbrev NodeId := ℤ

structure CService where
  ip : Bytes
  port : BitVec 16
  deriving DecidableEq, Repr

structure QueuedBlock where
  hash : Uint256
  pindex : Option CBlockIndex
  nTime : ℤ
  nValidatedQueuedBefore : ℤ
  fValidatedHeaders : Bool
  deriving DecidableEq

/-- The place of a list node. No two nodes that are ever made have the same. -/
abbrev Place := ℕ

/-- A C++ `bool` in an arithmetic expression. -/
def toInt (b : Bool) : ℤ := if b then 1 else 0

structure CNodeState where
  name : String := ""
  address : CService := ⟨[], 0⟩
  fCurrentlyConnected : Bool := false
  nMisbehavior : ℤ := 0
  fSyncStarted : Bool := false
  nStallingSince : ℤ := 0
  vBlocksInFlight : List (Place × QueuedBlock) := []
  nBlocksInFlight : ℤ := 0
  fPreferredDownload : Bool := false
  deriving DecidableEq

/-- What these functions read of a connection. -/
structure CNode where
  addrName : String
  addr : CService
  fInbound : Bool
  fWhitelisted : Bool
  fOneShot : Bool
  fClient : Bool

/-- `addressesConnected` is what was passed to `AddressCurrentlyConnected`; `nextPlace` is the
place of the next list node. -/
structure State where
  mapNodeState : Dict NodeId CNodeState := Dict.empty
  mapBlocksInFlight : Dict Uint256 (NodeId × Place) := Dict.empty
  nQueuedValidatedHeaders : ℤ := 0
  nPreferredDownload : ℤ := 0
  nSyncStarted : ℤ := 0
  addressesConnected : List CService := []
  nextPlace : Place := 0

section Functions

variable (s : State)

def setNode (nodeid : NodeId) (state : CNodeState) : State :=
  { s with mapNodeState := s.mapNodeState.set nodeid state }

/-- `none` where the program follows a null pointer, here and below. -/
def updatePreferredDownload (node : CNode) (nodeid : NodeId) : Option State :=
  match s.mapNodeState.find nodeid with
  | none => none
  | some state =>
    let fPreferredDownload :=
      (!node.fInbound || node.fWhitelisted) && !node.fOneShot && !node.fClient
    some { setNode s nodeid { state with fPreferredDownload := fPreferredDownload } with
      nPreferredDownload :=
        s.nPreferredDownload - toInt state.fPreferredDownload + toInt fPreferredDownload }

def initializeNode (nodeid : NodeId) (pnode : CNode) : State :=
  setNode s nodeid { (s.mapNodeState.find nodeid).getD {} with
    name := pnode.addrName
    address := pnode.addr }

/-- The orphan transactions of the peer, which are erased too, are not part of this state. -/
def finalizeNode (nodeid : NodeId) : Option State :=
  match s.mapNodeState.find nodeid with
  | none => none
  | some state => some { s with
      nSyncStarted := s.nSyncStarted - toInt state.fSyncStarted
      addressesConnected :=
        if state.nMisbehavior = 0 ∧ state.fCurrentlyConnected = true then
          s.addressesConnected ++ [state.address]
        else s.addressesConnected
      mapBlocksInFlight :=
        s.mapBlocksInFlight.eraseAll (state.vBlocksInFlight.map fun entry => entry.2.hash)
      nPreferredDownload := s.nPreferredDownload - toInt state.fPreferredDownload
      mapNodeState := s.mapNodeState.erase nodeid }

/-- Also `none` where the program follows the place of a list node that is no longer there. -/
def markBlockAsReceived (hash : Uint256) : Option State :=
  match s.mapBlocksInFlight.find hash with
  | none => some s
  | some (nodeid, place) =>
    match s.mapNodeState.find nodeid with
    | none => none
    | some state =>
      match state.vBlocksInFlight.find? fun entry => entry.1 == place with
      | none => none
      | some entry => some { setNode s nodeid { state with
            vBlocksInFlight := state.vBlocksInFlight.eraseP fun entry => entry.1 == place
            nBlocksInFlight := state.nBlocksInFlight - 1
            nStallingSince := 0 } with
          nQueuedValidatedHeaders := s.nQueuedValidatedHeaders - toInt entry.2.fValidatedHeaders
          mapBlocksInFlight := s.mapBlocksInFlight.erase hash }

def queueBlock (nodeid : NodeId) (hash : Uint256) (pindex : Option CBlockIndex)
    (nTime : ℤ) : Option State :=
  match s.mapNodeState.find nodeid with
  | none => none
  | some state =>
    let newentry : QueuedBlock := ⟨hash, pindex, nTime, s.nQueuedValidatedHeaders, pindex.isSome⟩
    some { setNode s nodeid { state with
          vBlocksInFlight := state.vBlocksInFlight ++ [(s.nextPlace, newentry)]
          nBlocksInFlight := state.nBlocksInFlight + 1 } with
        nQueuedValidatedHeaders := s.nQueuedValidatedHeaders + toInt newentry.fValidatedHeaders
        mapBlocksInFlight := s.mapBlocksInFlight.set hash (nodeid, s.nextPlace)
        nextPlace := s.nextPlace + 1 }

/-- The pointer to the state of the peer is taken, and checked, before `MarkBlockAsReceived`. -/
def markBlockAsInFlight (nodeid : NodeId) (hash : Uint256) (pindex : Option CBlockIndex)
    (nTime : ℤ) : Option State :=
  if s.mapNodeState.count nodeid then
    (markBlockAsReceived s hash).bind fun s => queueBlock s nodeid hash pindex nTime
  else none

end Functions

/-- The calls. `touch` stands for what the rest of the program writes to the state of a peer:
that it is connected, misbehaves, stalls, or that header synchronisation with it starts. -/
inductive Event
  | initializeNode (nodeid : NodeId) (pnode : CNode)
  | updatePreferredDownload (node : CNode) (nodeid : NodeId)
  | markBlockAsInFlight (nodeid : NodeId) (hash : Uint256) (pindex : Option CBlockIndex)
      (nTime : ℤ)
  | markBlockAsReceived (hash : Uint256)
  | finalizeNode (nodeid : NodeId)
  | touch (nodeid : NodeId) (fCurrentlyConnected : Bool) (nMisbehavior nStallingSince : ℤ)
      (fSyncStarted : Bool)

def touch (s : State) (nodeid : NodeId) (fCurrentlyConnected : Bool)
    (nMisbehavior nStallingSince : ℤ) (fSyncStarted : Bool) : Option State :=
  match s.mapNodeState.find nodeid with
  | none => none
  | some state => some { setNode s nodeid { state with
        fCurrentlyConnected := fCurrentlyConnected
        nMisbehavior := nMisbehavior
        nStallingSince := nStallingSince
        fSyncStarted := state.fSyncStarted || fSyncStarted } with
      nSyncStarted := s.nSyncStarted + toInt (!state.fSyncStarted && fSyncStarted) }

def step (s : State) : Event → Option State
  | .initializeNode nodeid pnode => some (initializeNode s nodeid pnode)
  | .updatePreferredDownload node nodeid => updatePreferredDownload s node nodeid
  | .markBlockAsInFlight nodeid hash pindex nTime => markBlockAsInFlight s nodeid hash pindex nTime
  | .markBlockAsReceived hash => markBlockAsReceived s hash
  | .finalizeNode nodeid => finalizeNode s nodeid
  | .touch nodeid fCurrentlyConnected nMisbehavior nStallingSince fSyncStarted =>
    touch s nodeid fCurrentlyConnected nMisbehavior nStallingSince fSyncStarted

/-- The state after the calls, from the start of the program. -/
def run (events : List Event) : Option State := events.foldlM step {}

/-! The invariant. -/

/-- The blocks of a queue whose headers were validated when they were asked for. -/
def validated (state : CNodeState) : ℤ :=
  (state.vBlocksInFlight.map fun entry => toInt entry.2.fValidatedHeaders).sum

/-- Map and queues lead to each other, and the counters of the peers are right. -/
structure Linked (s : State) : Prop where
  pointed : ∀ hash nodeid place, s.mapBlocksInFlight.find hash = some (nodeid, place) →
    ∃ state q, s.mapNodeState.find nodeid = some state ∧ (place, q) ∈ state.vBlocksInFlight ∧
      q.hash = hash
  queued : ∀ nodeid state, s.mapNodeState.find nodeid = some state →
    ∀ entry ∈ state.vBlocksInFlight,
      s.mapBlocksInFlight.find entry.2.hash = some (nodeid, entry.1)
  distinct : ∀ nodeid state, s.mapNodeState.find nodeid = some state →
    (state.vBlocksInFlight.map Prod.fst).Nodup
  fresh : ∀ nodeid state, s.mapNodeState.find nodeid = some state →
    ∀ entry ∈ state.vBlocksInFlight, entry.1 < s.nextPlace
  counted : ∀ nodeid state, s.mapNodeState.find nodeid = some state →
    state.nBlocksInFlight = state.vBlocksInFlight.length
  preferred : s.nPreferredDownload = s.mapNodeState.sum fun state => toInt state.fPreferredDownload

/-- By how much the counter of validated headers exceeds their number. -/
def excess (s : State) : ℤ := s.nQueuedValidatedHeaders - s.mapNodeState.sum validated

section Steps

variable {s s' : State}

/-- A peer is changed, its queue is not. -/
theorem Linked.keepQueue (h : Linked s) {nodeid : NodeId} {state state' : CNodeState}
    (hfind : s.mapNodeState.find nodeid = some state)
    (hnodes : s'.mapNodeState = s.mapNodeState.set nodeid state')
    (hblocks : s'.mapBlocksInFlight = s.mapBlocksInFlight) (hplace : s'.nextPlace = s.nextPlace)
    (hpreferred : s'.nPreferredDownload =
      s.nPreferredDownload - toInt state.fPreferredDownload + toInt state'.fPreferredDownload)
    (hqueue : state'.vBlocksInFlight = state.vBlocksInFlight)
    (hcount : state'.nBlocksInFlight = state.nBlocksInFlight) : Linked s' := by
  have hold : ∀ nodeid' x, s'.mapNodeState.find nodeid' = some x →
      ∃ y, s.mapNodeState.find nodeid' = some y ∧ x.vBlocksInFlight = y.vBlocksInFlight ∧
        x.nBlocksInFlight = y.nBlocksInFlight := by
    intro nodeid' x hx
    rw [hnodes] at hx
    rcases Dict.find_set_cases hx with ⟨rfl, rfl⟩ | ⟨-, hx⟩
    · exact ⟨state, hfind, hqueue, hcount⟩
    · exact ⟨x, hx, rfl, rfl⟩
  constructor
  · intro hash nodeid' place hmap
    rw [hblocks] at hmap
    obtain ⟨x, q, hx, hq, hhash⟩ := h.pointed hash nodeid' place hmap
    rw [hnodes]
    simp only [Dict.find_set]
    by_cases hn : nodeid' = nodeid
    · rw [if_pos hn]
      rw [hn, hfind] at hx
      obtain rfl := Option.some.inj hx
      exact ⟨state', q, rfl, hqueue ▸ hq, hhash⟩
    · rw [if_neg hn]
      exact ⟨x, q, hx, hq, hhash⟩
  · intro nodeid' x hx entry hentry
    obtain ⟨y, hy, hxy, -⟩ := hold nodeid' x hx
    rw [hblocks]
    exact h.queued nodeid' y hy entry (hxy ▸ hentry)
  · intro nodeid' x hx
    obtain ⟨y, hy, hxy, -⟩ := hold nodeid' x hx
    rw [hxy]
    exact h.distinct nodeid' y hy
  · intro nodeid' x hx entry hentry
    obtain ⟨y, hy, hxy, -⟩ := hold nodeid' x hx
    rw [hplace]
    exact h.fresh nodeid' y hy entry (hxy ▸ hentry)
  · intro nodeid' x hx
    obtain ⟨y, hy, hxy, hcount'⟩ := hold nodeid' x hx
    rw [hxy, hcount']
    exact h.counted nodeid' y hy
  · rw [hpreferred, hnodes, Dict.sum_set_of_find hfind, h.preferred]

/-- A peer joins, with an empty queue. -/
theorem Linked.join (h : Linked s) {nodeid : NodeId} {state : CNodeState}
    (hfind : s.mapNodeState.find nodeid = none) (hqueue : state.vBlocksInFlight = [])
    (hcount : state.nBlocksInFlight = 0) (hpreferred : state.fPreferredDownload = false) :
    Linked (setNode s nodeid state) := by
  have hold : ∀ nodeid' x, (setNode s nodeid state).mapNodeState.find nodeid' = some x →
      nodeid' = nodeid ∧ x = state ∨ nodeid' ≠ nodeid ∧ s.mapNodeState.find nodeid' = some x :=
    fun nodeid' x hx => Dict.find_set_cases hx
  constructor
  · intro hash nodeid' place hmap
    obtain ⟨x, q, hx, hq, hhash⟩ := h.pointed hash nodeid' place hmap
    have hn : nodeid' ≠ nodeid := by
      rintro rfl
      rw [hfind] at hx
      cases hx
    exact ⟨x, q, by rw [setNode, Dict.find_set, if_neg hn, hx], hq, hhash⟩
  · intro nodeid' x hx entry hentry
    rcases hold nodeid' x hx with ⟨-, rfl⟩ | ⟨-, hx⟩
    · rw [hqueue] at hentry
      cases hentry
    · exact h.queued nodeid' x hx entry hentry
  · intro nodeid' x hx
    rcases hold nodeid' x hx with ⟨-, rfl⟩ | ⟨-, hx⟩
    · rw [hqueue]
      exact List.nodup_nil
    · exact h.distinct nodeid' x hx
  · intro nodeid' x hx entry hentry
    rcases hold nodeid' x hx with ⟨-, rfl⟩ | ⟨-, hx⟩
    · rw [hqueue] at hentry
      cases hentry
    · exact h.fresh nodeid' x hx entry hentry
  · intro nodeid' x hx
    rcases hold nodeid' x hx with ⟨-, rfl⟩ | ⟨-, hx⟩
    · rw [hqueue, hcount]
      rfl
    · exact h.counted nodeid' x hx
  · have hsum : (setNode s nodeid state).mapNodeState.sum (fun x => toInt x.fPreferredDownload) =
        s.mapNodeState.sum (fun x => toInt x.fPreferredDownload) := by
      rw [setNode, Dict.sum_set_of_none hfind, hpreferred]
      exact add_zero _
    rw [hsum]
    exact h.preferred

/-- A peer leaves, and its blocks leave the map. -/
theorem Linked.leave (h : Linked s) {nodeid : NodeId} {state : CNodeState}
    (hfind : s.mapNodeState.find nodeid = some state)
    (hnodes : s'.mapNodeState = s.mapNodeState.erase nodeid)
    (hblocks : s'.mapBlocksInFlight =
      s.mapBlocksInFlight.eraseAll (state.vBlocksInFlight.map fun entry => entry.2.hash))
    (hplace : s'.nextPlace = s.nextPlace)
    (hpreferred :
      s'.nPreferredDownload = s.nPreferredDownload - toInt state.fPreferredDownload) :
    Linked s' := by
  have hold : ∀ nodeid' x, s'.mapNodeState.find nodeid' = some x →
      nodeid' ≠ nodeid ∧ s.mapNodeState.find nodeid' = some x := by
    intro nodeid' x hx
    rw [hnodes, Dict.find_erase] at hx
    split at hx
    · cases hx
    · next hn => exact ⟨hn, hx⟩
  constructor
  · intro hash nodeid' place hmap
    rw [hblocks, Dict.find_eraseAll] at hmap
    split at hmap
    · cases hmap
    · next hhash =>
      obtain ⟨x, q, hx, hq, rfl⟩ := h.pointed hash nodeid' place hmap
      have hn : nodeid' ≠ nodeid := by
        rintro rfl
        rw [hfind] at hx
        obtain rfl := Option.some.inj hx
        exact hhash (List.mem_map.mpr ⟨(place, q), hq, rfl⟩)
      exact ⟨x, q, by rw [hnodes, Dict.find_erase, if_neg hn, hx], hq, rfl⟩
  · intro nodeid' x hx entry hentry
    obtain ⟨hn, hx⟩ := hold nodeid' x hx
    have hmap := h.queued nodeid' x hx entry hentry
    have hother : entry.2.hash ∉ state.vBlocksInFlight.map fun entry => entry.2.hash := by
      intro hmem
      obtain ⟨entry', hentry', hhash⟩ := List.mem_map.mp hmem
      have hmap' := h.queued nodeid state hfind entry' hentry'
      rw [hhash, hmap] at hmap'
      exact hn (congrArg Prod.fst (Option.some.inj hmap'))
    rw [hblocks, Dict.find_eraseAll, if_neg hother, hmap]
  · exact fun nodeid' x hx => h.distinct nodeid' x (hold nodeid' x hx).2
  · intro nodeid' x hx entry hentry
    rw [hplace]
    exact h.fresh nodeid' x (hold nodeid' x hx).2 entry hentry
  · exact fun nodeid' x hx => h.counted nodeid' x (hold nodeid' x hx).2
  · rw [hpreferred, hnodes, Dict.sum_erase hfind, h.preferred]

theorem eraseP_of_find? {α : Type*} {p : α → Bool} {l : List α} {a : α}
    (h : l.find? p = some a) : ∃ l₁ l₂, l = l₁ ++ a :: l₂ ∧ l.eraseP p = l₁ ++ l₂ := by
  obtain ⟨ha, l₁, l₂, rfl, hl₁⟩ := List.find?_eq_some_iff_append.mp h
  refine ⟨l₁, l₂, rfl, ?_⟩
  rw [List.eraseP_append_right _ (by simpa using hl₁), List.eraseP_cons_of_pos ha]

/-- A block leaves a queue and the map. -/
theorem Linked.dequeue (h : Linked s) {nodeid : NodeId} {state state' : CNodeState}
    {entry : Place × QueuedBlock} {l₁ l₂ : List (Place × QueuedBlock)}
    (hfind : s.mapNodeState.find nodeid = some state)
    (hsplit : state.vBlocksInFlight = l₁ ++ entry :: l₂)
    (hnodes : s'.mapNodeState = s.mapNodeState.set nodeid state')
    (hblocks : s'.mapBlocksInFlight = s.mapBlocksInFlight.erase entry.2.hash)
    (hplace : s'.nextPlace = s.nextPlace)
    (hpreferred : s'.nPreferredDownload = s.nPreferredDownload)
    (hqueue : state'.vBlocksInFlight = l₁ ++ l₂)
    (hcount : state'.nBlocksInFlight = state.nBlocksInFlight - 1)
    (hflag : state'.fPreferredDownload = state.fPreferredDownload) : Linked s' := by
  have hmap := h.queued nodeid state hfind entry (by simp [hsplit])
  have hdistinct := h.distinct nodeid state hfind
  rw [hsplit, List.map_append, List.map_cons, List.nodup_middle, List.nodup_cons,
    ← List.map_append] at hdistinct
  have hin : ∀ e ∈ l₁ ++ l₂, e ∈ state.vBlocksInFlight := by
    intro e he
    rw [hsplit, List.mem_append, List.mem_cons]
    rcases List.mem_append.mp he with he | he
    · exact Or.inl he
    · exact Or.inr (Or.inr he)
  have hold : ∀ nodeid' x, s'.mapNodeState.find nodeid' = some x →
      nodeid' = nodeid ∧ x = state' ∨ nodeid' ≠ nodeid ∧ s.mapNodeState.find nodeid' = some x := by
    intro nodeid' x hx
    rw [hnodes] at hx
    exact Dict.find_set_cases hx
  constructor
  · intro hash nodeid' place hmap'
    rw [hblocks, Dict.find_erase] at hmap'
    split at hmap'
    · cases hmap'
    · next hhash =>
      obtain ⟨x, q, hx, hq, rfl⟩ := h.pointed hash nodeid' place hmap'
      rw [hnodes]
      simp only [Dict.find_set]
      by_cases hn : nodeid' = nodeid
      · rw [if_pos hn]
        rw [hn, hfind] at hx
        obtain rfl := Option.some.inj hx
        refine ⟨state', q, rfl, ?_, rfl⟩
        rw [hsplit, List.mem_append, List.mem_cons] at hq
        rw [hqueue, List.mem_append]
        rcases hq with hq | rfl | hq
        · exact Or.inl hq
        · exact absurd rfl hhash
        · exact Or.inr hq
      · rw [if_neg hn]
        exact ⟨x, q, hx, hq, rfl⟩
  · intro nodeid' x hx e he
    have hother : s.mapBlocksInFlight.find e.2.hash = some (nodeid', e.1) ∧
        e.2.hash ≠ entry.2.hash := by
      rcases hold nodeid' x hx with ⟨rfl, rfl⟩ | ⟨hn, hx⟩
      · rw [hqueue] at he
        have hmap' := h.queued nodeid' state hfind e (hin e he)
        refine ⟨hmap', fun hhash => hdistinct.1 ?_⟩
        rw [hhash, hmap] at hmap'
        have hsame : entry.1 = e.1 := congrArg Prod.snd (Option.some.inj hmap')
        rw [hsame]
        exact List.mem_map_of_mem he
      · have hmap' := h.queued nodeid' x hx e he
        refine ⟨hmap', fun hhash => ?_⟩
        rw [hhash, hmap] at hmap'
        exact hn (congrArg Prod.fst (Option.some.inj hmap')).symm
    rw [hblocks, Dict.find_erase, if_neg hother.2, hother.1]
  · intro nodeid' x hx
    rcases hold nodeid' x hx with ⟨-, rfl⟩ | ⟨-, hx⟩
    · rw [hqueue]
      exact hdistinct.2
    · exact h.distinct nodeid' x hx
  · intro nodeid' x hx e he
    rw [hplace]
    rcases hold nodeid' x hx with ⟨-, rfl⟩ | ⟨-, hx⟩
    · exact h.fresh nodeid state hfind e (hin e (hqueue ▸ he))
    · exact h.fresh nodeid' x hx e he
  · intro nodeid' x hx
    rcases hold nodeid' x hx with ⟨-, rfl⟩ | ⟨-, hx⟩
    · rw [hcount, h.counted nodeid state hfind, hsplit, hqueue]
      simp only [List.length_append, List.length_cons]
      omega
    · exact h.counted nodeid' x hx
  · rw [hpreferred, hnodes, Dict.sum_set_of_find hfind, hflag, h.preferred]
    omega

/-- A block that is in no queue joins one. -/
theorem Linked.enqueue (h : Linked s) {nodeid : NodeId} {state state' : CNodeState}
    {q : QueuedBlock} (hfind : s.mapNodeState.find nodeid = some state)
    (hnew : s.mapBlocksInFlight.find q.hash = none)
    (hnodes : s'.mapNodeState = s.mapNodeState.set nodeid state')
    (hblocks : s'.mapBlocksInFlight = s.mapBlocksInFlight.set q.hash (nodeid, s.nextPlace))
    (hplace : s'.nextPlace = s.nextPlace + 1)
    (hpreferred : s'.nPreferredDownload = s.nPreferredDownload)
    (hqueue : state'.vBlocksInFlight = state.vBlocksInFlight ++ [(s.nextPlace, q)])
    (hcount : state'.nBlocksInFlight = state.nBlocksInFlight + 1)
    (hflag : state'.fPreferredDownload = state.fPreferredDownload) : Linked s' := by
  have hold : ∀ nodeid' x, s'.mapNodeState.find nodeid' = some x →
      nodeid' = nodeid ∧ x = state' ∨ nodeid' ≠ nodeid ∧ s.mapNodeState.find nodeid' = some x := by
    intro nodeid' x hx
    rw [hnodes] at hx
    exact Dict.find_set_cases hx
  have hkept : ∀ nodeid' x e, s.mapNodeState.find nodeid' = some x → e ∈ x.vBlocksInFlight →
      s'.mapBlocksInFlight.find e.2.hash = some (nodeid', e.1) := by
    intro nodeid' x e hx he
    have hmap := h.queued nodeid' x hx e he
    have hne : e.2.hash ≠ q.hash := by
      intro hhash
      rw [hhash, hnew] at hmap
      cases hmap
    rw [hblocks, Dict.find_set, if_neg hne, hmap]
  constructor
  · intro hash nodeid' place hmap
    rw [hblocks, Dict.find_set] at hmap
    rw [hnodes]
    simp only [Dict.find_set]
    split at hmap
    · next hhash =>
      obtain ⟨rfl, rfl⟩ := Prod.mk.inj (Option.some.inj hmap)
      exact ⟨state', q, if_pos rfl, by simp [hqueue], hhash.symm⟩
    · obtain ⟨x, q', hx, hq', hhash⟩ := h.pointed hash nodeid' place hmap
      by_cases hn : nodeid' = nodeid
      · rw [if_pos hn]
        rw [hn, hfind] at hx
        obtain rfl := Option.some.inj hx
        exact ⟨state', q', rfl, by rw [hqueue]; exact List.mem_append_left _ hq', hhash⟩
      · rw [if_neg hn]
        exact ⟨x, q', hx, hq', hhash⟩
  · intro nodeid' x hx e he
    rcases hold nodeid' x hx with ⟨rfl, rfl⟩ | ⟨hn, hx⟩
    · rw [hqueue, List.mem_append, List.mem_singleton] at he
      rcases he with he | rfl
      · exact hkept nodeid' state e hfind he
      · rw [hblocks, Dict.find_set_self]
    · exact hkept nodeid' x e hx he
  · intro nodeid' x hx
    rcases hold nodeid' x hx with ⟨-, rfl⟩ | ⟨-, hx⟩
    · have hnext : s.nextPlace ∉ state.vBlocksInFlight.map Prod.fst := by
        intro hmem
        obtain ⟨e, he, hplace'⟩ := List.mem_map.mp hmem
        exact (h.fresh nodeid state hfind e he).ne hplace'
      rw [hqueue, List.map_append, List.map_cons, List.map_nil, ← List.concat_eq_append]
      exact List.Nodup.concat hnext (h.distinct nodeid state hfind)
    · exact h.distinct nodeid' x hx
  · intro nodeid' x hx e he
    rw [hplace]
    rcases hold nodeid' x hx with ⟨-, rfl⟩ | ⟨-, hx⟩
    · rw [hqueue, List.mem_append, List.mem_singleton] at he
      rcases he with he | rfl
      · exact Nat.lt_succ_of_lt (h.fresh nodeid state hfind e he)
      · exact Nat.lt_succ_self _
    · exact Nat.lt_succ_of_lt (h.fresh nodeid' x hx e he)
  · intro nodeid' x hx
    rcases hold nodeid' x hx with ⟨-, rfl⟩ | ⟨-, hx⟩
    · rw [hcount, h.counted nodeid state hfind, hqueue]
      simp
    · exact h.counted nodeid' x hx
  · rw [hpreferred, hnodes, Dict.sum_set_of_find hfind, hflag, h.preferred]
    omega

/-! What each call does. -/

theorem excess_set {nodeid : NodeId} {state state' : CNodeState} (d : ℤ)
    (hfind : s.mapNodeState.find nodeid = some state)
    (hnodes : s'.mapNodeState = s.mapNodeState.set nodeid state')
    (hheaders : s'.nQueuedValidatedHeaders = s.nQueuedValidatedHeaders + d)
    (hqueue : validated state' = validated state + d) : excess s' = excess s := by
  rw [excess, excess, hnodes, Dict.sum_set_of_find hfind, hheaders, hqueue]
  omega

/-- What is kept by a call that takes a block from its queue, or finds none. -/
structure Received (s : State) (hash : Uint256) (s' : State) : Prop where
  linked : Linked s'
  excess : excess s' = excess s
  gone : s'.mapBlocksInFlight.find hash = none
  peers : ∀ nodeid, s'.mapNodeState.count nodeid = s.mapNodeState.count nodeid

theorem Linked.markBlockAsReceived (h : Linked s) (hash : Uint256) :
    ∃ s', Download.markBlockAsReceived s hash = some s' ∧ Received s hash s' := by
  cases hmap : s.mapBlocksInFlight.find hash with
  | none => exact ⟨s, by simp only [Download.markBlockAsReceived, hmap], h, rfl, hmap, fun _ => rfl⟩
  | some target =>
    obtain ⟨nodeid, place⟩ := target
    obtain ⟨state, q, hfind, hq, rfl⟩ := h.pointed hash nodeid place hmap
    have hplace :
        state.vBlocksInFlight.find? (fun entry => entry.1 == place) = some (place, q) := by
      cases hfound : state.vBlocksInFlight.find? fun entry => entry.1 == place with
      | none => exact absurd (List.find?_eq_none.mp hfound _ hq) (by simp)
      | some entry =>
        have hentry := List.mem_of_find?_eq_some hfound
        have hsame : entry.1 = place := by simpa using List.find?_some hfound
        rw [List.inj_on_of_nodup_map (h.distinct nodeid state hfind) hentry hq hsame]
    obtain ⟨l₁, l₂, hsplit, herase⟩ := eraseP_of_find? hplace
    refine ⟨_, by simp only [Download.markBlockAsReceived, hmap, hfind, hplace]; rfl,
      ?_, ?_, ?_, ?_⟩
    · exact h.dequeue hfind hsplit rfl rfl rfl rfl herase rfl rfl
    · refine excess_set (-toInt q.fValidatedHeaders) hfind rfl rfl ?_
      simp only [validated, herase]
      simp only [hsplit, List.map_append, List.map_cons, List.sum_append, List.sum_cons]
      omega
    · exact (Dict.find_erase _ _ _).trans (if_pos rfl)
    · intro nodeid'
      simp only [Dict.count, setNode, Dict.find_set]
      split
      · next hn => rw [hn, hfind]; rfl
      · rfl

theorem Linked.queueBlock (h : Linked s) {nodeid : NodeId} {hash : Uint256}
    (pindex : Option CBlockIndex) (nTime : ℤ) (hpeer : s.mapNodeState.count nodeid = true)
    (hnew : s.mapBlocksInFlight.find hash = none) :
    ∃ s', Download.queueBlock s nodeid hash pindex nTime = some s' ∧ Linked s' ∧
      excess s' = excess s := by
  obtain ⟨state, hfind⟩ := Dict.count_eq_true.mp hpeer
  refine ⟨_, by simp only [Download.queueBlock, hfind]; rfl, ?_, ?_⟩
  · exact @Linked.enqueue s _ h nodeid state _
      ⟨hash, pindex, nTime, s.nQueuedValidatedHeaders, pindex.isSome⟩ hfind hnew rfl rfl rfl rfl rfl
      rfl rfl
  · refine excess_set (toInt pindex.isSome) hfind rfl rfl ?_
    simp only [validated, List.map_append, List.map_cons, List.map_nil, List.sum_append,
      List.sum_cons, List.sum_nil, add_zero]

theorem Linked.initializeNode (h : Linked s) (nodeid : NodeId) (pnode : CNode) :
    Linked (Download.initializeNode s nodeid pnode) ∧
      excess (Download.initializeNode s nodeid pnode) = excess s := by
  cases hfind : s.mapNodeState.find nodeid with
  | none =>
    rw [Download.initializeNode, hfind]
    refine ⟨h.join hfind rfl rfl rfl, ?_⟩
    rw [excess, setNode, Dict.sum_set_of_none hfind]
    exact congrArg (s.nQueuedValidatedHeaders - ·) (add_zero _)
  | some state =>
    rw [Download.initializeNode, hfind]
    refine ⟨h.keepQueue hfind rfl rfl rfl ?_ rfl rfl, excess_set 0 hfind rfl ?_ ?_⟩
    · simp only [setNode, Option.getD_some]
      omega
    · exact (add_zero _).symm
    · exact (add_zero _).symm

theorem Linked.updatePreferredDownload (h : Linked s) (node : CNode) {nodeid : NodeId}
    (hpeer : s.mapNodeState.count nodeid = true) :
    ∃ s', Download.updatePreferredDownload s node nodeid = some s' ∧ Linked s' ∧
      excess s' = excess s := by
  obtain ⟨state, hfind⟩ := Dict.count_eq_true.mp hpeer
  refine ⟨_, by simp only [Download.updatePreferredDownload, hfind]; rfl, ?_, ?_⟩
  · exact h.keepQueue hfind rfl rfl rfl rfl rfl rfl
  · exact excess_set 0 hfind rfl (add_zero _).symm (add_zero _).symm

theorem Linked.touch (h : Linked s) {nodeid : NodeId} (fCurrentlyConnected : Bool)
    (nMisbehavior nStallingSince : ℤ) (fSyncStarted : Bool)
    (hpeer : s.mapNodeState.count nodeid = true) :
    ∃ s', Download.touch s nodeid fCurrentlyConnected nMisbehavior nStallingSince fSyncStarted =
        some s' ∧ Linked s' ∧ excess s' = excess s := by
  obtain ⟨state, hfind⟩ := Dict.count_eq_true.mp hpeer
  refine ⟨_, by simp only [Download.touch, hfind]; rfl, ?_, ?_⟩
  · refine h.keepQueue hfind rfl rfl rfl ?_ rfl rfl
    simp only [setNode]
    omega
  · exact excess_set 0 hfind rfl (add_zero _).symm (add_zero _).symm

theorem Linked.markBlockAsInFlight (h : Linked s) {nodeid : NodeId} (hash : Uint256)
    (pindex : Option CBlockIndex) (nTime : ℤ) (hpeer : s.mapNodeState.count nodeid = true) :
    ∃ s', Download.markBlockAsInFlight s nodeid hash pindex nTime = some s' ∧ Linked s' ∧
      excess s' = excess s := by
  obtain ⟨s₁, hreceived, h₁⟩ := h.markBlockAsReceived hash
  obtain ⟨s', hqueue, hlinked, hexcess⟩ := h₁.linked.queueBlock pindex nTime
    ((h₁.peers nodeid).trans hpeer) h₁.gone
  refine ⟨s', ?_, hlinked, hexcess.trans h₁.excess⟩
  rw [Download.markBlockAsInFlight, if_pos hpeer, hreceived, Option.bind_some, hqueue]

/-- The counter of validated headers does not follow when the blocks of a peer are dropped. -/
theorem Linked.finalizeNode (h : Linked s) {nodeid : NodeId} {state : CNodeState}
    (hfind : s.mapNodeState.find nodeid = some state) :
    ∃ s', Download.finalizeNode s nodeid = some s' ∧ Linked s' ∧
      excess s' = excess s + validated state := by
  refine ⟨_, by simp only [Download.finalizeNode, hfind]; rfl, ?_, ?_⟩
  · exact h.leave hfind rfl rfl rfl rfl
  · simp only [excess, Dict.sum_erase hfind]
    omega

/-- The peer that a call is for, where there has to be one. -/
def Event.peer? : Event → Option NodeId
  | .updatePreferredDownload _ nodeid => some nodeid
  | .markBlockAsInFlight nodeid _ _ _ => some nodeid
  | .finalizeNode nodeid => some nodeid
  | .touch nodeid _ _ _ _ => some nodeid
  | .initializeNode _ _ => none
  | .markBlockAsReceived _ => none

/-- The call is for a peer that is initialised. -/
def Event.Addressed (s : State) (e : Event) : Prop :=
  ∀ nodeid, e.peer? = some nodeid → s.mapNodeState.count nodeid = true

/-- How many blocks with validated headers leave with the peer. -/
def Event.leak (s : State) : Event → ℤ
  | .finalizeNode nodeid => ((s.mapNodeState.find nodeid).map validated).getD 0
  | _ => 0

/-- A call for an initialised peer succeeds. It keeps maps, queues and counters together, but
the counter of validated headers keeps the blocks of a peer that leaves. -/
theorem Linked.step (h : Linked s) {e : Event} (he : e.Addressed s) :
    ∃ s', Download.step s e = some s' ∧ Linked s' ∧ excess s' = excess s + e.leak s := by
  cases e with
  | initializeNode nodeid pnode =>
    obtain ⟨hlinked, hexcess⟩ := h.initializeNode nodeid pnode
    exact ⟨_, rfl, hlinked, hexcess.trans (add_zero _).symm⟩
  | updatePreferredDownload node nodeid =>
    obtain ⟨s', hs', hlinked, hexcess⟩ := h.updatePreferredDownload node (he nodeid rfl)
    exact ⟨s', hs', hlinked, hexcess.trans (add_zero _).symm⟩
  | markBlockAsInFlight nodeid hash pindex nTime =>
    obtain ⟨s', hs', hlinked, hexcess⟩ := h.markBlockAsInFlight hash pindex nTime (he nodeid rfl)
    exact ⟨s', hs', hlinked, hexcess.trans (add_zero _).symm⟩
  | markBlockAsReceived hash =>
    obtain ⟨s', hs', h'⟩ := h.markBlockAsReceived hash
    exact ⟨s', hs', h'.linked, h'.excess.trans (add_zero _).symm⟩
  | finalizeNode nodeid =>
    obtain ⟨state, hfind⟩ := Dict.count_eq_true.mp (he nodeid rfl)
    obtain ⟨s', hs', hlinked, hexcess⟩ := h.finalizeNode hfind
    refine ⟨s', hs', hlinked, ?_⟩
    rw [hexcess, Event.leak, hfind]
    rfl
  | touch nodeid fCurrentlyConnected nMisbehavior nStallingSince fSyncStarted =>
    obtain ⟨s', hs', hlinked, hexcess⟩ := h.touch fCurrentlyConnected nMisbehavior nStallingSince
      fSyncStarted (he nodeid rfl)
    exact ⟨s', hs', hlinked, hexcess.trans (add_zero _).symm⟩

/-- A call for a peer that is not initialised does not return. -/
theorem addressed_of_step {e : Event} (h : step s e = some s') : e.Addressed s := by
  intro nodeid hpeer
  cases hfind : s.mapNodeState.find nodeid with
  | some state => exact Dict.count_eq_true.mpr ⟨state, hfind⟩
  | none =>
    have hcount : s.mapNodeState.count nodeid = false := Dict.count_eq_false.mpr hfind
    cases e with
    | initializeNode => cases hpeer
    | markBlockAsReceived => cases hpeer
    | updatePreferredDownload =>
      obtain rfl := Option.some.inj hpeer
      simp [step, updatePreferredDownload, hfind] at h
    | markBlockAsInFlight =>
      obtain rfl := Option.some.inj hpeer
      simp [step, markBlockAsInFlight, hcount] at h
    | finalizeNode =>
      obtain rfl := Option.some.inj hpeer
      simp [step, finalizeNode, hfind] at h
    | touch =>
      obtain rfl := Option.some.inj hpeer
      simp [step, touch, hfind] at h

end Steps

/-! Runs. -/

/-- The bookkeeping of a state. -/
structure Exact (s : State) : Prop extends Linked s where
  validated : s.nQueuedValidatedHeaders = s.mapNodeState.sum validated
  finished : (∀ nodeid, s.mapNodeState.find nodeid = none) →
    (∀ hash, s.mapBlocksInFlight.find hash = none) ∧ s.nQueuedValidatedHeaders = 0 ∧
      s.nPreferredDownload = 0

theorem linked_start : Linked {} := by
  constructor
  · intro hash nodeid place hmap
    rw [Dict.find_empty] at hmap
    cases hmap
  · intro nodeid state hfind
    rw [Dict.find_empty] at hfind
    cases hfind
  · intro nodeid state hfind
    rw [Dict.find_empty] at hfind
    cases hfind
  · intro nodeid state hfind
    rw [Dict.find_empty] at hfind
    cases hfind
  · intro nodeid state hfind
    rw [Dict.find_empty] at hfind
    cases hfind
  · rfl

theorem Linked.exact {s : State} (h : Linked s) (hexcess : excess s = 0) : Exact s := by
  have hvalidated : s.nQueuedValidatedHeaders = s.mapNodeState.sum validated :=
    Int.sub_eq_zero.mp hexcess
  refine ⟨h, hvalidated, fun hnone => ⟨fun hash => ?_, ?_, ?_⟩⟩
  · cases hmap : s.mapBlocksInFlight.find hash with
    | none => rfl
    | some target =>
      obtain ⟨state, q, hfind, -⟩ := h.pointed hash target.1 target.2 hmap
      rw [hnone] at hfind
      cases hfind
  · rw [hvalidated, Dict.sum_of_find_none hnone]
  · rw [h.preferred, Dict.sum_of_find_none hnone]

theorem Exact.excess {s : State} (h : Exact s) : excess s = 0 := Int.sub_eq_zero.mpr h.validated

theorem run_concat {events : List Event} {e : Event} :
    run (events ++ [e]) = (run events).bind fun s => step s e := by
  simp [run, List.foldlM_append, Option.bind_eq_bind]

theorem linked_run {events : List Event} {s : State} (h : run events = some s) : Linked s := by
  induction events using List.reverseRecOn generalizing s with
  | nil =>
    obtain rfl := Option.some.inj h
    exact linked_start
  | append_singleton events e ih =>
    rw [run_concat] at h
    obtain ⟨mid, hmid, hstep⟩ := Option.bind_eq_some_iff.mp h
    obtain ⟨s', hs', hlinked, -⟩ := (ih hmid).step (addressed_of_step hstep)
    rw [hstep] at hs'
    exact Option.some.inj hs' ▸ hlinked

theorem validated_eq_zero {state : CNodeState} :
    validated state = 0 ↔
      ∀ entry ∈ state.vBlocksInFlight, entry.2.fValidatedHeaders = false := by
  rw [validated]
  induction state.vBlocksInFlight with
  | nil => simp
  | cons entry rest ih =>
    have hrest : 0 ≤ (rest.map fun entry => toInt entry.2.fValidatedHeaders).sum := by
      refine List.sum_nonneg fun x hx => ?_
      obtain ⟨e, -, rfl⟩ := List.mem_map.mp hx
      cases e.2.fValidatedHeaders <;> decide
    simp only [List.map_cons, List.sum_cons, List.forall_mem_cons, ← ih]
    cases entry.2.fValidatedHeaders with
    | false => simp [toInt]
    | true =>
      have hone : toInt true = 1 := rfl
      simp only [hone, Bool.true_eq_false, false_and, iff_false]
      omega

/-- No block with validated headers is in flight from the peer. -/
def Idle (s : State) (nodeid : NodeId) : Prop :=
  ∀ state, s.mapNodeState.find nodeid = some state →
    ∀ entry ∈ state.vBlocksInFlight, entry.2.fValidatedHeaders = false

theorem leak_eq_zero {s : State} {nodeid : NodeId} :
    (Event.finalizeNode nodeid).leak s = 0 ↔ Idle s nodeid := by
  rw [Event.leak, Idle]
  cases s.mapNodeState.find nodeid with
  | none => simp
  | some state => simp [validated_eq_zero]

/-- The peers that leave during the run are idle. -/
def LeavesIdle (events : List Event) : Prop :=
  ∀ past nodeid rest s, events = past ++ .finalizeNode nodeid :: rest → run past = some s →
    Idle s nodeid

theorem LeavesIdle.excess {events : List Event} (h : LeavesIdle events) {s : State}
    (hs : run events = some s) : excess s = 0 := by
  induction events using List.reverseRecOn generalizing s with
  | nil =>
    obtain rfl := Option.some.inj hs
    rfl
  | append_singleton events e ih =>
    rw [run_concat] at hs
    obtain ⟨mid, hmid, hstep⟩ := Option.bind_eq_some_iff.mp hs
    obtain ⟨s', hs', -, hexcess⟩ := (linked_run hmid).step (addressed_of_step hstep)
    obtain rfl : s = s' := Option.some.inj (hstep.symm.trans hs')
    have hpast : LeavesIdle events := fun past nodeid rest s hsplit =>
      h past nodeid (rest ++ [e]) s (by rw [hsplit, List.append_assoc, List.cons_append])
    have hleak : e.leak mid = 0 := by
      cases e with
      | finalizeNode nodeid => exact leak_eq_zero.mpr (h events nodeid [] mid rfl hmid)
      | _ => rfl
    rw [hexcess, ih hpast hmid, hleak, add_zero]

/-- In every run the bookkeeping is exact in all states that are reached, if and only if no peer
leaves while blocks with validated headers are in flight from it. No call that is made for an
initialised peer fails. -/
theorem bookkeeping_exact_iff (events : List Event) :
    ((∀ past rest s, events = past ++ rest → run past = some s → Exact s) ↔
      LeavesIdle events) ∧
    ∀ s e, run events = some s → (e.Addressed s ↔ ∃ s', step s e = some s') := by
  refine ⟨⟨fun h past nodeid rest s hsplit hs => ?_, fun h past rest s hsplit hs => ?_⟩, ?_⟩
  · intro state hfind
    obtain ⟨s', hs', -, hexcess⟩ := (linked_run hs).finalizeNode hfind
    have hnext : run (past ++ [.finalizeNode nodeid]) = some s' := by
      rw [run_concat, hs]
      exact hs'
    have hbefore := (h past _ s hsplit hs).excess
    have hafter := (h (past ++ [.finalizeNode nodeid]) rest s' (by simp [hsplit]) hnext).excess
    rw [hexcess, hbefore, zero_add] at hafter
    exact validated_eq_zero.mp hafter
  · have hpast : LeavesIdle past := fun past' nodeid rest' s' hsplit' =>
      h past' nodeid (rest' ++ rest) s' (by rw [hsplit, hsplit', List.append_assoc]; rfl)
    exact (linked_run hs).exact (hpast.excess hs)
  · intro s e hs
    constructor
    · intro he
      obtain ⟨s', hs', -⟩ := (linked_run hs).step he
      exact ⟨s', hs'⟩
    · rintro ⟨s', hs'⟩
      exact addressed_of_step hs'

/-! A peer leaves that was asked for a block. -/

def askedBlock : CBlockIndex := .root ⟨7, 1600000000, 0x1e0ffff0, true, false, 0⟩

def outboundPeer : CNode := ⟨"peer", ⟨[127, 0, 0, 1], 42222⟩, false, false, false, false⟩

def leavingPeer : List Event :=
  [.initializeNode 0 outboundPeer, .markBlockAsInFlight 0 7 (some askedBlock) 1600000000,
    .finalizeNode 0]

/-- All peers have left, and one block with validated headers is still counted. -/
theorem leavingPeer_counted : ∃ s, run leavingPeer = some s ∧
    (∀ nodeid, s.mapNodeState.find nodeid = none) ∧ s.nQueuedValidatedHeaders = 1 ∧ ¬Exact s := by
  have hcounted : (run leavingPeer).map State.nQueuedValidatedHeaders = some 1 := by decide
  have hlist : (run leavingPeer).map (fun s => s.mapNodeState.toList.length) = some 0 := by
    decide
  obtain ⟨s, hs, hone⟩ := Option.map_eq_some_iff.mp hcounted
  rw [hs, Option.map_some, Option.some.injEq, List.length_eq_zero_iff] at hlist
  have hnone : ∀ nodeid, s.mapNodeState.find nodeid = none := by
    intro nodeid
    cases hfind : s.mapNodeState.find nodeid with
    | none => rfl
    | some state =>
      rw [← Dict.mem_toList, hlist] at hfind
      cases hfind
  refine ⟨s, hs, hnone, hone, fun h => ?_⟩
  have hzero := (h.finished hnone).2.1
  rw [hone] at hzero
  cases hzero

end Scrypta.Download
