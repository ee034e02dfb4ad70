import Scrypta.BestChain
import Scrypta.Refusals

/-! What becomes of a node when `ConnectBlock` refuses a block. The loop of activation goes on
only after a refusal that says that the block is invalid. -/

namespace Scrypta.Chainstate

open Validation

/-! The answers of `ConnectBlock`. -/

/-- What `ConnectTip` makes of the answer; a call that crashes does not come back either. -/
def Verdict.of : Except Refusal Connected → Verdict
  | .ok _ => .connected
  | .error (.dos _ _ corruptionIn) => .invalid corruptionIn
  | .error .failed => .error
  | .error .noReturn => .noReturn
  | .error .crashed => .noReturn

/-- The blocks on disk and what `ConnectBlock` reads besides them. The disk works;
`disconnectBlock` says whether a block can be taken off again. -/
structure Contents where
  par : Params
  orc : Oracles
  env : Env
  block : CBlockIndex → CBlock
  disconnectBlock : CBlockIndex → Bool

namespace Contents

variable (w : Contents)

/-- The environment in which a block is connected: its parent is the tip. -/
def environ (b : CBlockIndex) : Env := { w.env with chainActive := CChain.setTip b.parent? }

def connectOn (b : CBlockIndex) (view : CCoinsViewCache) : Except Refusal Connected :=
  Validation.connectBlock w.par w.orc (w.environ b) {} (w.block b) b view false

/-- The coins that the chain of a block leaves. -/
def coinsAfter : CBlockIndex → CCoinsViewCache
  | .root a =>
    match w.connectOn (.root a) ⟨0, Dict.empty⟩ with
    | .ok c => c.view
    | .error _ => ⟨0, Dict.empty⟩
  | .child p a =>
    match w.connectOn (.child p a) (coinsAfter p) with
    | .ok c => c.view
    | .error _ => coinsAfter p

def coinsBefore (b : CBlockIndex) : CCoinsViewCache :=
  match b.parent? with
  | none => ⟨0, Dict.empty⟩
  | some p => w.coinsAfter p

/-- `ConnectBlock` on the coins of the parent. -/
def connectBlock (b : CBlockIndex) : Except Refusal Connected := w.connectOn b (w.coinsBefore b)

def blocks : Blocks where
  connectBlock b := Verdict.of (w.connectBlock b)
  disconnectBlock := w.disconnectBlock

/-- `CheckBlock` takes the block for one that was damaged on its way. -/
def LooksDamaged (b : CBlockIndex) : Prop :=
  ∃ nDoS strRejectReason, checkBlock w.par w.orc (w.environ b) (w.block b) true =
    .error (.dos nDoS strRejectReason true)

/-- `ConnectBlock` comes to an end on the block. -/
def Returns (b : CBlockIndex) : Prop :=
  w.connectBlock b ≠ .error .noReturn ∧ w.connectBlock b ≠ .error .crashed

end Contents

variable {w : Contents} {n : Node} {t b c : CBlockIndex}

/-- A refusal is recorded unless it looks like damage or never comes. -/
theorem Contents.blocks_invalid_iff (hb : w.blocks.connectBlock b ≠ .connected) :
    w.blocks.connectBlock b = .invalid false ↔ ¬w.LooksDamaged b ∧ w.Returns b := by
  change Verdict.of (w.connectBlock b) ≠ .connected at hb
  change Verdict.of (w.connectBlock b) = .invalid false ↔ _
  rw [Contents.Returns]
  generalize hr : w.connectBlock b = x at hb ⊢
  cases x with
  | ok c => exact absurd rfl hb
  | error r =>
    have hkind := refuses_connectBlock w.par w.orc (w.environ b) hr
    constructor
    · intro hv
      refine ⟨?_, fun h => ?_, fun h => ?_⟩
      · rintro ⟨nDoS, strRejectReason, hdamaged⟩
        have hr' := hr.symm.trans (connectBlock_of_checkBlock w.par w.orc (w.environ b) hdamaged)
        rw [hr'] at hv
        cases hv
      · rw [h] at hv
        cases hv
      · rw [h] at hv
        cases hv
    · rintro ⟨hdamaged, hreturns, hcrashed⟩
      cases r with
      | dos nDoS strRejectReason corruptionIn =>
        cases corruptionIn with
        | false => rfl
        | true =>
          rcases hkind with hplain | ⟨-, hcheck⟩
          · cases hplain
          · exact absurd ⟨nDoS, strRejectReason, hcheck⟩ hdamaged
      | failed => exact (hkind.elim id fun h => h.1 rfl).elim
      | noReturn => exact absurd rfl hreturns
      | crashed => exact absurd rfl hcrashed

/-! Full trees. -/

/-- The entry is in the index. -/
def Indexed (n : Node) (b : CBlockIndex) : Prop := n.mapBlockIndex.find b.getBlockHash = some b

/-- A node that has the data of all its blocks, with the tip `t`. The candidates are the blocks
that are as good as the tip and not known to be invalid; the active chain connects. -/
structure FullTree (orc : Blocks) (n : Node) (t : CBlockIndex) : Prop where
  tip : n.tip = some t
  indexed : Indexed n t
  parent : ∀ p x, Indexed n (.child p x) → Indexed n p
  genesis : ∀ a a', Indexed n (.root a) → Indexed n (.root a') → a = a'
  address : ∀ b c, Indexed n b → Indexed n c → n.address b = n.address c → b = c
  data : ∀ b, Indexed n b → (n.entry b).fHaveData = true
  live : Live n t
  candidates : ∀ c ∈ n.setBlockIndexCandidates, Indexed n c ∧ n.workLess c t = false
  complete : ∀ b, Indexed n b → Live n b → n.workLess b t = false →
    b ∈ n.setBlockIndexCandidates
  connects : ∀ x ≤ t, orc.connectBlock x = .connected
  disconnects : ∀ p x, orc.disconnectBlock (.child p x) = true

/-- The activation recovered from every refused block: what is better than the new tip has its
first refused block recorded, the new tip is the best candidate all of whose blocks connect, and
it has no less work than the tip before. -/
structure Recovered (orc : Blocks) (n n' : Node) (m : CBlockIndex) : Prop where
  tip : n'.tip = some m
  candidate : m ∈ n.setBlockIndexCandidates
  live : Live n m
  connects : ChainConnects orc n m
  best : ∀ c ∈ n.setBlockIndexCandidates, Live n c → ChainConnects orc n c → n.rank c ≤ n.rank m
  recorded : ∀ c ∈ n.setBlockIndexCandidates, Live n c → n.rank m < n.rank c →
    ∀ b, FirstRefused orc n c b → (n'.entry b).fFailedValid = true
  work : ∀ t, n.tip = some t → nChainWork t ≤ nChainWork m

/-- Activation ends without an error and has recovered. -/
def Recovers (orc : Blocks) (n : Node) : Prop :=
  ∃ rounds a m, activateBestChain orc rounds n = (a, some .ok) ∧ Recovered orc n a.node m

section FullTree

variable {orc : Blocks}

theorem Indexed.mono (hparent : ∀ p x, Indexed n (.child p x) → Indexed n p)
    (hc : Indexed n c) (hbc : b ≤ c) : Indexed n b := by
  induction c with
  | root a => exact Lineage.le_root.mp hbc ▸ hc
  | child p a ih =>
    rcases Lineage.le_child.mp hbc with rfl | hbp
    · exact hc
    · exact ih (hparent p a hc) hbp

theorem exists_root_le (b : CBlockIndex) : ∃ a, Lineage.root a ≤ b := by
  induction b with
  | root a => exact ⟨a, le_rfl⟩
  | child p x ih =>
    obtain ⟨a, ha⟩ := ih
    exact ⟨a, ha.trans (Lineage.parent_le p x)⟩

theorem not_workLess_iff : n.workLess b c = false ↔ n.rank c ≤ n.rank b := by
  rw [← Bool.not_eq_true, Node.workLess_iff, not_lt]

theorem address_eq_of_rank (h : n.rank b = n.rank c) : n.address b = n.address c := by
  simp only [Node.rank, EmbeddingLike.apply_eq_iff_eq, Prod.mk.injEq] at h
  exact h.2.2

/-- The candidate that activation is bound for. -/
theorem FullTree.bound (h : FullTree orc n t)
    (hrefused : ∀ c ∈ n.setBlockIndexCandidates, Live n c →
      (∀ d ∈ n.setBlockIndexCandidates, Live n d → ChainConnects orc n d → n.rank d < n.rank c) →
      ∀ b, FirstRefused orc n c b → orc.connectBlock b = .invalid false) :
    ∃ g m, Bound orc n g t m := by
  have htip : t ∈ n.setBlockIndexCandidates :=
    h.complete t h.indexed h.live (not_workLess_iff.mpr le_rfl)
  have hconn : ChainConnects orc n t := fun x hx => Or.inr (h.connects x hx)
  obtain ⟨m, hm, hlive, hconnm, hmax⟩ := exists_best ⟨t, htip, h.live, hconn⟩
  obtain ⟨a, ha⟩ := exists_root_le t
  have hbeyond {c : CBlockIndex} (hlt : n.rank m < n.rank c) :
      ∀ d ∈ n.setBlockIndexCandidates, Live n d → ChainConnects orc n d → n.rank d < n.rank c :=
    fun d hd hl hcd => (hmax d hd hl hcd).trans_lt hlt
  refine ⟨.root a, m, {
    tip := h.tip
    usable := h.live
    genesis := ha
    rooted := fun c hc => ?_
    data := fun c hc x hx => h.data x (((h.candidates c hc).1).mono h.parent hx)
    ahead := fun c hc => not_workLess_iff.mp (h.candidates c hc).2
    mem := hm
    live := hlive
    connects := hconnm
    best := fun c hc hl y hy hcy => ?_
    distinct := fun c hc d hd heq => h.address c d (h.candidates c hc).1 (h.candidates d hd).1
      (address_eq_of_rank heq)
    disconnects := h.disconnects
    refused := fun c hc hl hlt => hrefused c hc hl (hbeyond hlt)
    reconnects := fun _ _ _ _ x hx _ => h.connects x hx }⟩
  · obtain ⟨a', ha'⟩ := exists_root_le c
    rw [h.genesis a a' (h.indexed.mono h.parent ha) ((h.candidates c hc).1.mono h.parent ha')]
    exact ha'
  · rcases lt_or_ge (n.rank y) (n.rank t) with hlt | hge
    · exact hlt.le.trans (hmax t htip h.live hconn)
    · have hlivey : Live n y := fun x hx => hl x (hx.trans hy)
      exact hmax y (h.complete y ((h.candidates c hc).1.mono h.parent hy) hlivey
        (not_workLess_iff.mpr hge)) hlivey hcy

theorem nChainWork_le_of_rank (h : n.rank b ≤ n.rank c) : nChainWork b ≤ nChainWork c := by
  by_contra hlt
  exact not_lt_of_ge h (rank_lt (not_le.mp hlt))

theorem FullTree.recovers (h : FullTree orc n t)
    (hrefused : ∀ c ∈ n.setBlockIndexCandidates, Live n c →
      (∀ d ∈ n.setBlockIndexCandidates, Live n d → ChainConnects orc n d → n.rank d < n.rank c) →
      ∀ b, FirstRefused orc n c b → orc.connectBlock b = .invalid false) : Recovers orc n := by
  obtain ⟨g, m, hb⟩ := h.bound hrefused
  obtain ⟨k, a, hk, htry, hmax⟩ := Trying.activateLoop (a := ⟨n, []⟩) hb.trying hb
  refine ⟨k, a, m, hk, {
    tip := htry.tip
    candidate := hb.mem
    live := hb.live
    connects := hb.connects
    best := fun c hc hl hconn => hb.best c hc hl c le_rfl hconn
    recorded := fun c hc hl hlt b hfirst => htry.recorded hmax hb hc hl hlt hfirst
    work := fun t' ht' => ?_ }⟩
  obtain rfl : t = t' := Option.some.inj (h.tip.symm.trans ht')
  exact nChainWork_le_of_rank (not_workLess_iff.mp (h.candidates m hb.mem).2)

/-- What has been recorded was refused as invalid. -/
theorem Recovers.invalid (h : Recovers orc n) (hc : c ∈ n.setBlockIndexCandidates)
    (hlive : Live n c)
    (hbeyond : ∀ d ∈ n.setBlockIndexCandidates, Live n d → ChainConnects orc n d →
      n.rank d < n.rank c) (hfirst : FirstRefused orc n c b) :
    orc.connectBlock b = .invalid false := by
  obtain ⟨rounds, a, m, hrun, hrec⟩ := h
  have hlt := hbeyond m hrec.candidate hrec.live hrec.connects
  have hfailed := hrec.recorded c hc hlive hlt b hfirst
  refine ((marks_activateLoop hrun).refused b hfailed).resolve_left fun hbefore => ?_
  rw [hlive.fFailedValid hfirst.le] at hbefore
  cases hbefore

end FullTree

def firstBlock : CBlockIndex := plainChain 0

def oldTip : CBlockIndex := .child firstBlock ⟨1, 1500000000, 0x1e0ffff0, false, false, 0⟩

def rival : CBlockIndex := .child firstBlock ⟨2, 1500000000, 0x1d0ffff0, false, false, 0⟩

/-- The blocks pay one coin to nobody, and the rival is as given. -/
def rivalContents (sporks : Dict ℤ Spork.CSporkMessage) (block : CBlock) : Contents where
  par := mainParams
  orc := plainOracles
  env := plainEnv firstBlock sporks Dict.empty
  block b :=
    if b = rival then block
    else plainBlock b.getBlockHash ((b.parent?.map CBlockIndex.getBlockHash).getD 0)
      [coinbaseOf (b.getBlockHash + 100) [{ nValue := 0, scriptPubKey := [0x51] }]]
  disconnectBlock _ := true

def rivalNode (t : CBlockIndex) (candidates : List CBlockIndex) : Node where
  mapBlockIndex := ((Dict.empty.set 1000 firstBlock).set 1 oldTip).set 2 rival
  entry _ := { nTx := 1, nChainTx := 1, fHaveData := true }
  address b := b.getBlockHash.toNat
  chainActive := CChain.ofTip t
  setBlockIndexCandidates := candidates
  mapBlocksUnlinked := []
  nBlockSequenceId := 1

theorem indexed_rivalNode {candidates : List CBlockIndex} :
    Indexed (rivalNode t candidates) b ↔ b = firstBlock ∨ b = oldTip ∨ b = rival := by
  simp only [Indexed, rivalNode, Dict.find_set, Dict.find_empty]
  constructor
  · intro h
    split_ifs at h
    · exact Or.inr (Or.inr (Option.some.inj h).symm)
    · exact Or.inr (Or.inl (Option.some.inj h).symm)
    · exact Or.inl (Option.some.inj h).symm
  · rintro (rfl | rfl | rfl) <;> rfl

theorem live_rivalNode (t b : CBlockIndex) (candidates : List CBlockIndex) :
    Live (rivalNode t candidates) b := fun _ _ => rfl

theorem fullTree_rivalNode {candidates : List CBlockIndex}
    (hdisc : ∀ b, w.disconnectBlock b = true) (ht : t = firstBlock ∨ t = oldTip)
    (hcandidates : ∀ b, b ∈ candidates ↔ (b = firstBlock ∨ b = oldTip ∨ b = rival) ∧
      (rivalNode t candidates).workLess b t = false)
    (hconn : ∀ x ≤ t, w.blocks.connectBlock x = .connected) :
    FullTree w.blocks (rivalNode t candidates) t where
  tip := CChain.tip_ofTip t
  indexed := indexed_rivalNode.mpr (ht.imp_right Or.inl)
  parent p x h := by
    rcases indexed_rivalNode.mp h with h | h | h
    · cases h
    · cases h
      exact indexed_rivalNode.mpr (Or.inl rfl)
    · cases h
      exact indexed_rivalNode.mpr (Or.inl rfl)
  genesis a a' h h' := by
    have hroot {a : BlockInfo} (h : Indexed (rivalNode t candidates) (.root a)) :
        Lineage.root a = firstBlock := by
      rcases indexed_rivalNode.mp h with h | h | h
      · exact h
      · cases h
      · cases h
    exact Lineage.root.inj ((hroot h).trans (hroot h').symm)
  address b c hb hc h := by
    change b.getBlockHash.toNat = c.getBlockHash.toNat at h
    rcases indexed_rivalNode.mp hb with rfl | rfl | rfl <;>
      rcases indexed_rivalNode.mp hc with rfl | rfl | rfl <;>
      first | rfl | exact absurd h (by decide)
  data _ _ := rfl
  live := live_rivalNode t t candidates
  candidates c hc := ⟨indexed_rivalNode.mpr ((hcandidates c).mp hc).1, ((hcandidates c).mp hc).2⟩
  complete b hb _ hless := (hcandidates b).mpr ⟨indexed_rivalNode.mp hb, hless⟩
  connects := hconn
  disconnects _ _ := hdisc _

theorem le_oldTip {x : CBlockIndex} (hx : x ≤ oldTip) : x = oldTip ∨ x = firstBlock :=
  (Lineage.le_child.mp hx).imp_right Lineage.le_root.mp

theorem fullTree_oldTip (sporks : Dict ℤ Spork.CSporkMessage) (block : CBlock)
    (hfirst : (rivalContents sporks block).blocks.connectBlock firstBlock = .connected)
    (hold : (rivalContents sporks block).blocks.connectBlock oldTip = .connected) :
    FullTree (rivalContents sporks block).blocks (rivalNode oldTip [oldTip, rival]) oldTip := by
  refine fullTree_rivalNode (fun _ => rfl) (Or.inr rfl) (fun b => ⟨fun hb => ?_, ?_⟩) fun x hx => ?_
  · rcases List.mem_pair.mp hb with rfl | rfl
    · exact ⟨Or.inr (Or.inl rfl), by decide⟩
    · exact ⟨Or.inr (Or.inr rfl), by decide⟩
  · rintro ⟨rfl | rfl | rfl, hless⟩
    · exact absurd hless (by decide)
    · exact List.mem_cons_self
    · exact List.mem_pair.mpr (Or.inr rfl)
  · rcases le_oldTip hx with rfl | rfl
    · exact hold
    · exact hfirst

/-- A rival that pays itself too much. -/
def greedyBlock : CBlock :=
  plainBlock 2 1000 [coinbaseOf 102 [{ nValue := 2000000 * coin, scriptPubKey := [0x51] }]]

/-- A rival whose transactions do not fit its Merkle root. -/
def damagedBlock : CBlock :=
  { plainBlock 2 1000 [coinbaseOf 102 [{ nValue := 0, scriptPubKey := [0x51] }]] with
    hashMerkleRoot := 7 }

/-- A rival whose only output goes to its miner. -/
def thriftyBlock : CBlock :=
  { plainBlock 2 1000 [coinbaseOf 102 [{ nValue := 0, scriptPubKey := [0x51] }]] with nNonce := 1 }

/-- `SPORK_15` and `SPORK_17`, on since the start of 2017. -/
def recipientSporks : Dict ℤ Spork.CSporkMessage :=
  (Dict.empty.set Spork.spork15NewProtocolEnforcement2
    ⟨[], Spork.spork15NewProtocolEnforcement2, 1483228800, 1483228700⟩).set
    Spork.spork17BlockRecipientEnforcement
    ⟨[], Spork.spork17BlockRecipientEnforcement, 1483228800, 1483228700⟩

theorem firstRefused_rival {candidates : List CBlockIndex}
    (hfirst : Connects w.blocks (rivalNode t candidates) firstBlock)
    (hrival : ¬Connects w.blocks (rivalNode t candidates) rival) :
    FirstRefused w.blocks (rivalNode t candidates) rival rival := by
  refine ⟨le_rfl, hrival, fun x hx => ?_⟩
  rcases Lineage.le_child.mp hx.le with rfl | hx'
  · exact absurd rfl hx.ne
  · exact (Lineage.le_root.mp hx') ▸ hfirst

theorem not_recovers_of_rival {candidates : List CBlockIndex}
    (ht : t = firstBlock ∨ t = oldTip)
    (hmem : ∀ b ∈ candidates, b = firstBlock ∨ b = oldTip ∨ b = rival)
    (hrival : rival ∈ candidates) (hfirst : w.blocks.connectBlock firstBlock = .connected)
    (hconn : w.blocks.connectBlock rival ≠ .connected)
    (hinvalid : w.blocks.connectBlock rival ≠ .invalid false) :
    ¬Recovers w.blocks (rivalNode t candidates) := by
  have hnot : ¬Connects w.blocks (rivalNode t candidates) rival := by
    rintro (hc | hv)
    · have hle := (CChain.contains_ofTip (b := t)).mp hc
      rcases ht with rfl | rfl
      · cases Lineage.le_root.mp hle
      · rcases le_oldTip hle with h | h
        · cases h
        · cases h
    · exact hconn hv
  intro hrec
  refine hinvalid (hrec.invalid (c := rival) hrival (live_rivalNode _ _ _)
    (fun d hd _ hd' => ?_) (firstRefused_rival (Or.inr hfirst) hnot))
  rcases hmem d hd with rfl | rfl | rfl
  · exact rank_lt (by decide)
  · exact rank_lt (by decide)
  · exact absurd (hd' rival le_rfl) hnot

end Scrypta.Chainstate
