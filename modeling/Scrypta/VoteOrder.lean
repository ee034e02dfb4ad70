import Mathlib.Data.Int.Order.Basic
import Scrypta.BudgetVotes
import Scrypta.Toolkit.Register

/-! The order in which the votes of one masternode on one proposal or finalized budget arrive.
The entry of the masternode in `mapVotes` is a register: a vote takes the place of the recorded
one when it is an hour newer. -/

namespace Scrypta.Budget

open Register

section Table

variable {ν : Type} (nTime : ν → ℤ) (voteHash hash : ν → Uint256)

/-- The table after a vote, which may be refused. -/
def record (mapVotes : Dict Uint256 ν) (d : ℤ × ν) : Dict Uint256 ν :=
  ((addOrUpdate nTime (voteHash d.2) d.1 mapVotes (hash d.2) d.2).toOption).getD mapVotes

def recordAll (mapVotes : Dict Uint256 ν) (ds : List (ℤ × ν)) : Dict Uint256 ν :=
  ds.foldl (record nTime voteHash hash) mapVotes

/-- One delivery of the votes: each of them with the time at which it arrives, and none more than
an hour ahead of that. -/
def DeliveryOf (votes : List ν) (ds : List (ℤ × ν)) : Prop :=
  (ds.map Prod.snd).Perm votes ∧ ∀ d ∈ ds, nTime d.2 ≤ d.1 + 60 * 60

end Table

variable {ν : Type} {nTime : ν → ℤ} {voteHash hash : ν → Uint256}

theorem record_find {mapVotes : Dict Uint256 ν} {d : ℤ × ν}
    (hnow : nTime d.2 ≤ d.1 + 60 * 60) (k : Uint256) :
    (record nTime voteHash hash mapVotes d).find k =
      if k = hash d.2 then receive (replaces nTime) (mapVotes.find (hash d.2)) d.2
      else mapVotes.find k := by
  rw [record, addOrUpdate_of_le hnow]
  cases hfind : mapVotes.find (hash d.2) with
  | none =>
    rw [if_pos (by simp), Option.getD_some, Dict.find_set]
    rfl
  | some recorded =>
    simp only [Option.some.injEq, forall_eq', receive]
    cases hr : replaces nTime recorded d.2 with
    | true => simp [Dict.find_set]
    | false =>
      simp only [Bool.false_eq_true, if_false, Option.getD_none]
      split
      · next hk => rw [hk, hfind]
      · rfl

/-- The entry of one masternode goes through the register, the others stay. -/
theorem recordAll_find {mapVotes : Dict Uint256 ν} {ds : List (ℤ × ν)} {key : Uint256}
    (hkey : ∀ d ∈ ds, hash d.2 = key) (hnow : ∀ d ∈ ds, nTime d.2 ≤ d.1 + 60 * 60)
    (k : Uint256) :
    (recordAll nTime voteHash hash mapVotes ds).find k =
      if k = key then final (replaces nTime) (mapVotes.find key) (ds.map Prod.snd)
      else mapVotes.find k := by
  induction ds generalizing mapVotes with
  | nil =>
    split
    · next hk => rw [hk]; rfl
    · rfl
  | cons d ds ih =>
    have hd : hash d.2 = key := hkey d List.mem_cons_self
    have hstep := @record_find _ _ voteHash hash mapVotes d (hnow d List.mem_cons_self)
    have hrest := @ih (record nTime voteHash hash mapVotes d)
      (fun e he => hkey e (List.mem_cons_of_mem d he))
      fun e he => hnow e (List.mem_cons_of_mem d he)
    change (recordAll nTime voteHash hash (record nTime voteHash hash mapVotes d) ds).find k = _
    rw [hrest, hstep, hstep, hd, if_pos rfl]
    by_cases hk : k = key
    · rw [if_pos hk, if_pos hk]
      rfl
    · rw [if_neg hk, if_neg hk, if_neg hk]

theorem replaces_rising : Rising (replaces nTime) nTime := fun _ _ => lt_of_replaces

/-- Some order of the votes with clocks that admit them. -/
theorem deliveryOf_self {votes votes' : List ν} (h : votes'.Perm votes) :
    DeliveryOf nTime votes (votes'.map fun v => (nTime v, v)) := by
  refine ⟨by simpa [List.map_map, Function.comp_def] using h, fun d hd => ?_⟩
  obtain ⟨v, _, rfl⟩ := List.mem_map.mp hd
  simp only
  omega

/-- One vote that can be recorded is an hour newer than every other vote that can: for a
masternode without a recorded vote, these are its votes. -/
def NewestApart (nTime : ν → ℤ) (recorded : Option ν) (votes : List ν) : Prop :=
  (recorded = none ∧ votes = []) ∨
    ∃ v, Reaches (replaces nTime) recorded votes v ∧
      ∀ u, Reaches (replaces nTime) recorded votes u → u ≠ v →
        nTime u ≤ nTime v ∧ budgetVoteUpdateMin ≤ toInt64 (nTime v - nTime u)

theorem newestApart_iff [DecidableEq ν] {recorded : Option ν} {votes : List ν} :
    NewestApart nTime recorded votes ↔
      ∀ l₁ l₂, l₁.Perm votes → l₂.Perm votes →
        final (replaces nTime) recorded l₁ = final (replaces nTime) recorded l₂ := by
  rw [final_perm_iff (@replaces_rising _ nTime)]
  simp only [NewestApart, replaces_iff]

/-- A masternode without a recorded vote. -/
theorem newestApart_of_none {votes : List ν} (v : ν) (hv : v ∈ votes)
    (hapart : ∀ u ∈ votes, u ≠ v →
      nTime u ≤ nTime v ∧ budgetVoteUpdateMin ≤ toInt64 (nTime v - nTime u)) :
    NewestApart nTime none votes := by
  refine Or.inr ⟨v, .first rfl hv, fun u hu => ?_⟩
  cases hu with
  | start h => cases h
  | first _ hm => exact hapart u hm
  | next _ hm _ => exact hapart u hm

theorem recordAll_converges_iff [DecidableEq ν] (mapVotes : Dict Uint256 ν) {key : Uint256}
    {votes : List ν} (hkey : ∀ v ∈ votes, hash v = key) :
    (∀ ds₁ ds₂, DeliveryOf nTime votes ds₁ → DeliveryOf nTime votes ds₂ →
      (recordAll nTime voteHash hash mapVotes ds₁).find key =
        (recordAll nTime voteHash hash mapVotes ds₂).find key) ↔
    NewestApart nTime (mapVotes.find key) votes := by
  have hfind : ∀ ds, DeliveryOf nTime votes ds →
      (recordAll nTime voteHash hash mapVotes ds).find key =
        final (replaces nTime) (mapVotes.find key) (ds.map Prod.snd) := by
    intro ds hds
    have hkeys : ∀ d ∈ ds, hash d.2 = key := fun d hd =>
      hkey d.2 (hds.1.mem_iff.mp (List.mem_map_of_mem hd))
    rw [recordAll_find hkeys hds.2, if_pos rfl]
  rw [newestApart_iff]
  constructor
  · intro hall l₁ l₂ h₁ h₂
    have hd₁ := @deliveryOf_self _ nTime _ _ h₁
    have hd₂ := @deliveryOf_self _ nTime _ _ h₂
    have h := hall _ _ hd₁ hd₂
    rw [hfind _ hd₁, hfind _ hd₂] at h
    simpa [List.map_map, Function.comp_def] using h
  · intro hall ds₁ ds₂ h₁ h₂
    rw [hfind _ h₁, hfind _ h₂, hall _ _ h₁.1 h₂.1]

/-- Two deliveries that agree on the masternode agree on everybody. -/
theorem recordAll_find_congr {mapVotes : Dict Uint256 ν} {key : Uint256} {votes : List ν}
    (hkey : ∀ v ∈ votes, hash v = key) {ds₁ ds₂ : List (ℤ × ν)}
    (h₁ : DeliveryOf nTime votes ds₁) (h₂ : DeliveryOf nTime votes ds₂)
    (h : (recordAll nTime voteHash hash mapVotes ds₁).find key =
      (recordAll nTime voteHash hash mapVotes ds₂).find key) (k : Uint256) :
    (recordAll nTime voteHash hash mapVotes ds₁).find k =
      (recordAll nTime voteHash hash mapVotes ds₂).find k := by
  have hkeys : ∀ ds, DeliveryOf nTime votes ds → ∀ d ∈ ds, hash d.2 = key := fun ds hds d hd =>
    hkey d.2 (hds.1.mem_iff.mp (List.mem_map_of_mem hd))
  rw [recordAll_find (hkeys _ h₁) h₁.2, recordAll_find (hkeys _ h₂) h₂.2, if_pos rfl,
    if_pos rfl] at h
  rw [recordAll_find (hkeys _ h₁) h₁.2, recordAll_find (hkeys _ h₂) h₂.2, h]

section Members

variable (orc : Oracles)

/-- The proposal after the votes, each with the time at which it arrives. -/
def CBudgetProposal.receiveVotes (p : CBudgetProposal) (ds : List (ℤ × CBudgetVote)) :
    CBudgetProposal :=
  ds.foldl (fun p d => (p.addOrUpdateVote orc d.1 d.2).toOption.getD p) p

def CFinalizedBudget.receiveVotes (b : CFinalizedBudget)
    (ds : List (ℤ × CFinalizedBudgetVote)) : CFinalizedBudget :=
  ds.foldl (fun b d => (b.addOrUpdateVote orc d.1 d.2).toOption.getD b) b

/-- Nodes that have received the same votes on the proposal record the same vote of the
masternode and report the same counts. -/
def ProposalConverges (mn : COutPoint) (p : CBudgetProposal) (votes : List CBudgetVote) : Prop :=
  ∀ ds₁ ds₂, DeliveryOf CBudgetVote.nTime votes ds₁ → DeliveryOf CBudgetVote.nTime votes ds₂ →
    (p.receiveVotes orc ds₁).mapVotes.find (orc.hashOutPoint mn) =
        (p.receiveVotes orc ds₂).mapVotes.find (orc.hashOutPoint mn) ∧
      (p.receiveVotes orc ds₁).getYeas = (p.receiveVotes orc ds₂).getYeas ∧
      (p.receiveVotes orc ds₁).getNays = (p.receiveVotes orc ds₂).getNays

def BudgetConverges (mn : COutPoint) (b : CFinalizedBudget)
    (votes : List CFinalizedBudgetVote) : Prop :=
  ∀ ds₁ ds₂, DeliveryOf CFinalizedBudgetVote.nTime votes ds₁ →
    DeliveryOf CFinalizedBudgetVote.nTime votes ds₂ →
    (b.receiveVotes orc ds₁).mapVotes.find (orc.hashOutPoint mn) =
        (b.receiveVotes orc ds₂).mapVotes.find (orc.hashOutPoint mn) ∧
      (b.receiveVotes orc ds₁).getVoteCount = (b.receiveVotes orc ds₂).getVoteCount

variable {orc}

theorem CBudgetProposal.receiveVotes_mapVotes (p : CBudgetProposal)
    (ds : List (ℤ × CBudgetVote)) :
    (p.receiveVotes orc ds).mapVotes =
      recordAll CBudgetVote.nTime (CBudgetVote.getHash orc)
        (fun v => orc.hashOutPoint v.vin.prevout) p.mapVotes ds := by
  induction ds generalizing p with
  | nil => rfl
  | cons d ds ih =>
    refine (ih _).trans (congrArg (recordAll _ _ _ · ds) ?_)
    simp only [CBudgetProposal.addOrUpdateVote, record]
    cases addOrUpdate CBudgetVote.nTime (d.2.getHash orc) d.1 p.mapVotes
      (orc.hashOutPoint d.2.vin.prevout) d.2 <;> rfl

theorem CFinalizedBudget.receiveVotes_mapVotes (b : CFinalizedBudget)
    (ds : List (ℤ × CFinalizedBudgetVote)) :
    (b.receiveVotes orc ds).mapVotes =
      recordAll CFinalizedBudgetVote.nTime (CFinalizedBudgetVote.getHash orc)
        (fun v => orc.hashOutPoint v.vin.prevout) b.mapVotes ds := by
  induction ds generalizing b with
  | nil => rfl
  | cons d ds ih =>
    refine (ih _).trans (congrArg (recordAll _ _ _ · ds) ?_)
    simp only [CFinalizedBudget.addOrUpdateVote, record]
    cases addOrUpdate CFinalizedBudgetVote.nTime (d.2.getHash orc) d.1 b.mapVotes
      (orc.hashOutPoint d.2.vin.prevout) d.2 <;> rfl

theorem proposalConverges_iff {mn : COutPoint} (p : CBudgetProposal) {votes : List CBudgetVote}
    (hmn : ∀ v ∈ votes, v.vin.prevout = mn) :
    ProposalConverges orc mn p votes ↔
      NewestApart CBudgetVote.nTime (p.mapVotes.find (orc.hashOutPoint mn)) votes := by
  have hkey : ∀ v ∈ votes, (fun v : CBudgetVote => orc.hashOutPoint v.vin.prevout) v =
      orc.hashOutPoint mn := fun v hv => congrArg orc.hashOutPoint (hmn v hv)
  rw [← @recordAll_converges_iff _ _ (CBudgetVote.getHash orc) _ _ p.mapVotes _ _ hkey]
  constructor
  · intro h ds₁ ds₂ h₁ h₂
    rw [← CBudgetProposal.receiveVotes_mapVotes, ← CBudgetProposal.receiveVotes_mapVotes]
    exact (h ds₁ ds₂ h₁ h₂).1
  · intro h ds₁ ds₂ h₁ h₂
    have hall : ∀ k, (p.receiveVotes orc ds₁).mapVotes.find k =
        (p.receiveVotes orc ds₂).mapVotes.find k := by
      rw [CBudgetProposal.receiveVotes_mapVotes, CBudgetProposal.receiveVotes_mapVotes]
      exact recordAll_find_congr hkey h₁ h₂ (h ds₁ ds₂ h₁ h₂)
    exact ⟨hall _, CBudgetProposal.countVotes_congr hall _,
      CBudgetProposal.countVotes_congr hall _⟩

theorem budgetConverges_iff {mn : COutPoint} (b : CFinalizedBudget)
    {votes : List CFinalizedBudgetVote} (hmn : ∀ v ∈ votes, v.vin.prevout = mn) :
    BudgetConverges orc mn b votes ↔
      NewestApart CFinalizedBudgetVote.nTime (b.mapVotes.find (orc.hashOutPoint mn)) votes := by
  have hkey : ∀ v ∈ votes, (fun v : CFinalizedBudgetVote => orc.hashOutPoint v.vin.prevout) v =
      orc.hashOutPoint mn := fun v hv => congrArg orc.hashOutPoint (hmn v hv)
  rw [← @recordAll_converges_iff _ _ (CFinalizedBudgetVote.getHash orc) _ _ b.mapVotes _ _ hkey]
  constructor
  · intro h ds₁ ds₂ h₁ h₂
    rw [← CFinalizedBudget.receiveVotes_mapVotes, ← CFinalizedBudget.receiveVotes_mapVotes]
    exact (h ds₁ ds₂ h₁ h₂).1
  · intro h ds₁ ds₂ h₁ h₂
    have hall : ∀ k, (b.receiveVotes orc ds₁).mapVotes.find k =
        (b.receiveVotes orc ds₂).mapVotes.find k := by
      rw [CFinalizedBudget.receiveVotes_mapVotes, CFinalizedBudget.receiveVotes_mapVotes]
      exact recordAll_find_congr hkey h₁ h₂ (h ds₁ ds₂ h₁ h₂)
    refine ⟨hall _, ?_⟩
    rw [CFinalizedBudget.getVoteCount, CFinalizedBudget.getVoteCount,
      (Dict.toList_perm hall).length_eq]

end Members

/-- The votes of one masternode on a proposal or a finalized budget end alike in every order of
arrival exactly when the newest that can be recorded is an hour apart from all the others. -/
theorem votes_converge_iff (orc : Oracles) (mn : COutPoint) :
    (∀ (p : CBudgetProposal) (votes : List CBudgetVote),
      (∀ v ∈ votes, v.vin.prevout = mn) →
        (ProposalConverges orc mn p votes ↔
          NewestApart CBudgetVote.nTime (p.mapVotes.find (orc.hashOutPoint mn)) votes)) ∧
    (∀ (b : CFinalizedBudget) (votes : List CFinalizedBudgetVote),
      (∀ v ∈ votes, v.vin.prevout = mn) →
        (BudgetConverges orc mn b votes ↔
          NewestApart CFinalizedBudgetVote.nTime
            (b.mapVotes.find (orc.hashOutPoint mn)) votes)) :=
  ⟨fun p _ hmn => proposalConverges_iff p hmn, fun b _ hmn => budgetConverges_iff b hmn⟩

section Runs

/-- A masternode says yes, and no half an hour later. -/
def changeOfMind : List CBudgetVote :=
  [sampleVote 50 voteYes 1600000000 1, sampleVote 50 voteNo 1600001800 1]

/-- In the order in which they were cast the yes stays, in the other order the no. -/
theorem votes_depend_on_order :
    (∀ v ∈ changeOfMind, v.signatureValid sampleHashes (fun _ => some []) = true) ∧
      ¬ProposalConverges sampleHashes ⟨50, 0⟩ sampleProposal changeOfMind := by
  refine ⟨by decide, fun h => ?_⟩
  have hself : DeliveryOf CBudgetVote.nTime changeOfMind
      (changeOfMind.map fun v => (v.nTime, v)) := deliveryOf_self (List.Perm.refl _)
  have hswap : DeliveryOf CBudgetVote.nTime changeOfMind
      (changeOfMind.reverse.map fun v => (v.nTime, v)) := deliveryOf_self changeOfMind.reverse_perm
  have hyeas := (h _ _ hself hswap).2.1
  exact absurd hyeas (by decide)

theorem votes_converge_iff_sample :
    ¬ProposalConverges sampleHashes ⟨50, 0⟩ sampleProposal changeOfMind ∧
      BudgetConverges sampleHashes ⟨50, 0⟩ ⟨43200, [], .empty, "main", 1, 0, true⟩
        [⟨⟨⟨50, 0⟩, [], 0⟩, 43200, 1600000000, [1], true⟩,
          ⟨⟨⟨50, 0⟩, [], 0⟩, 43200, 1600003600, [1], true⟩] := by
  constructor
  · rw [(votes_converge_iff sampleHashes ⟨50, 0⟩).1 sampleProposal changeOfMind (by decide)]
    rintro (⟨_, h⟩ | ⟨v, hv, hdom⟩)
    · cases h
    · have hfirst : ∀ u ∈ changeOfMind, Reaches (replaces CBudgetVote.nTime)
          (sampleProposal.mapVotes.find (sampleHashes.hashOutPoint ⟨50, 0⟩)) changeOfMind u :=
        fun u hu => .first rfl hu
      have hmem : v ∈ changeOfMind := by
        cases hv with
        | start h => cases h
        | first _ hm => exact hm
        | next _ hm _ => exact hm
      have hno : ∀ v ∈ changeOfMind, ∃ u ∈ changeOfMind, u ≠ v ∧
          ¬(u.nTime ≤ v.nTime ∧ budgetVoteUpdateMin ≤ toInt64 (v.nTime - u.nTime)) := by decide
      obtain ⟨u, hu, huv, hbad⟩ := hno v hmem
      exact hbad (hdom u (hfirst u hu) huv)
  · refine ((votes_converge_iff sampleHashes ⟨50, 0⟩).2 _ _ (by decide)).mpr ?_
    exact newestApart_of_none ⟨⟨⟨50, 0⟩, [], 0⟩, 43200, 1600003600, [1], true⟩ (by decide)
      (by decide)

end Runs

end Scrypta.Budget
