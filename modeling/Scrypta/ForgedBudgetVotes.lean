import Scrypta.BudgetMessages

/-! Two runs of the budget manager that differ in one forged vote. The filter for votes is
filled before the signature is checked, under a hash that leaves the signature out. -/

namespace Scrypta.Budget

open Runs

section Ballot

variable {τ ν : Type} {k : Kind τ ν} {env : Env} {b : Ballot τ ν} {asked : Dict Uint256 ℤ}

theorem processVote_of_seen {vote : ν} (h : b.seenVotes.count (k.voteHash vote) = true) :
    b.processVote k env asked vote = (b, asked, [.addedBudgetItem (k.voteHash vote)]) := by
  rw [Ballot.processVote, if_pos h]

/-- A forged vote of a known masternode that is new only enters the filter. -/
theorem processVote_of_forged {vote : ν} (hnew : b.seenVotes.count (k.voteHash vote) = false)
    (hmn : (env.find (k.vin vote).prevout).isSome = true)
    (hsig : k.signatureValid env.find vote = false) :
    b.processVote k env asked vote =
      ({ b with seenVotes := b.seenVotes.insert (k.voteHash vote) vote }, asked,
        (if env.isSynced then [.misbehaving 20] else []) ++ [.askForMN (k.vin vote)]) := by
  have hfind : (env.find (k.vin vote).prevout).isNone = false := by
    rw [← Option.not_isSome, hmn]
    rfl
  simp only [Ballot.processVote, hnew, hfind, hsig, Bool.false_eq_true, if_false, Bool.not_false,
    if_true]

/-- Nobody is asked for a masternode on account of a vote that was seen. -/
theorem forged_effects_ne {vote : ν} :
    ((if env.isSynced then [.misbehaving 20] else []) ++ [Effect.askForMN (k.vin vote)]) ≠
      [Effect.addedBudgetItem (k.voteHash vote)] := by
  split
  · exact fun h => nomatch h
  · exact fun h => nomatch h

end Ballot

/-- What a message leads to: the effects and the votes on every proposal and budget. -/
def outcome (r : CBudgetManager × List Effect) :
    List Effect × Dict Uint256 CBudgetProposal × Dict Uint256 CFinalizedBudget :=
  (r.2, r.1.proposals.targets, r.1.budgets.targets)

/-- Every later message, after any further messages, has the same outcome in the two states. -/
def SameOutcomes (orc : Oracles) (s s' : CBudgetManager) : Prop :=
  ∀ cont env m, ((run (step orc) (some s') cont).bind fun t =>
      (processMessage orc env t m).map outcome) =
    (run (step orc) (some s) cont).bind fun t => (processMessage orc env t m).map outcome

variable {orc : Oracles} {s : CBudgetManager} {env : Env}

theorem handles_eq_false_iff :
    env.handles = false ↔ env.fLiteMode = true ∨ env.isBlockchainSynced = false := by
  unfold Env.handles
  cases env.fLiteMode <;> simp

theorem processMessage_of_ignored (h : env.handles = false) (m : Message) :
    processMessage orc env s m = some (s, []) := by
  simp only [processMessage, h, Bool.not_false, if_true]

/-- The message as the first later one tells the states apart by its effects. -/
theorem not_sameOutcomes {s' : CBudgetManager} {m : Message} {r r' : CBudgetManager × List Effect}
    (h : processMessage orc env s m = some r) (h' : processMessage orc env s' m = some r')
    (hne : r'.2 ≠ r.2) : ¬SameOutcomes orc s s' := by
  intro hall
  have hone := hall [] env m
  rw [run_nil, run_nil, Option.bind_some, Option.bind_some, h, h'] at hone
  exact hne (congrArg Prod.fst (Option.some.inj hone))

/-- A message that stops at a filter: it is harmless when it is ignored or seen, and tells
itself apart from its repetition when it is new. -/
theorem harmless_iff_of_filter {m : Message} {seen : Bool}
    (hseen : env.handles = true → seen = true → ∃ effects,
      processMessage orc env s m = some (s, effects))
    (hnew : env.handles = true → seen = false → ∃ s' r, processMessage orc env s m = some (s', r) ∧
      ∃ t r', processMessage orc env s' m = some (t, r') ∧ r' ≠ r) :
    (∀ s' effects, processMessage orc env s m = some (s', effects) → SameOutcomes orc s s') ↔
      env.handles = false ∨ seen = true := by
  constructor
  · intro hall
    by_contra hno
    rw [not_or, Bool.not_eq_false, Bool.not_eq_true] at hno
    obtain ⟨s', r, hfirst, t, r', hagain, hne⟩ := hnew hno.1 hno.2
    exact not_sameOutcomes hfirst hagain hne (hall s' r hfirst)
  · intro hsafe s' effects h
    have hsame : s' = s := by
      cases hon : env.handles with
      | false =>
        rw [processMessage_of_ignored hon] at h
        exact (congrArg Prod.fst (Option.some.inj h)).symm
      | true =>
        obtain ⟨effects', heq⟩ := hseen hon (hsafe.resolve_left (by simp [hon]))
        exact (congrArg Prod.fst (Option.some.inj (heq.symm.trans h))).symm
    rw [hsame]
    exact fun _ _ _ => rfl

theorem processMessage_mvote (h : env.handles = true) (vote : CBudgetVote) :
    processMessage orc env s (.mvote vote) = some (processMvote orc env s vote) := by
  simp only [processMessage, h]
  rfl

theorem processMessage_fbvote (h : env.handles = true) (vote : CFinalizedBudgetVote) :
    processMessage orc env s (.fbvote vote) = some (processFbvote orc env s vote) := by
  simp only [processMessage, h]
  rfl

theorem count_insert_self {κ ν : Type} [DecidableEq κ] (m : Dict κ ν) (key : κ) (v : ν) :
    (m.insert key v).count key = true := by
  rw [Dict.count_eq_true, Dict.find_insert, if_pos rfl]
  exact ⟨_, rfl⟩

theorem processMvote_of_seen {vote : CBudgetVote}
    (h : s.proposals.seenVotes.count (vote.getHash orc) = true) :
    processMvote orc env s vote = (s, [.addedBudgetItem (vote.getHash orc)]) := by
  have hseen := @processVote_of_seen _ _ (proposalKind orc) env s.proposals
    s.askedForSourceProposalOrBudget { vote with fValid := true } h
  simp only [processMvote, hseen]
  rfl

theorem processFbvote_of_seen {vote : CFinalizedBudgetVote}
    (h : s.budgets.seenVotes.count (vote.getHash orc) = true) :
    processFbvote orc env s vote = (s, [.addedBudgetItem (vote.getHash orc)]) := by
  simp only [processFbvote, processVote_of_seen (k := budgetKind orc) h]
  rfl

/-- The forged vote is in the filter afterwards, and the peer is asked for the masternode. -/
theorem processMvote_of_forged {vote : CBudgetVote}
    (hnew : s.proposals.seenVotes.count (vote.getHash orc) = false)
    (hmn : (env.find vote.vin.prevout).isSome = true)
    (hsig : vote.signatureValid orc env.find = false) :
    (processMvote orc env s vote).1.proposals.seenVotes.count (vote.getHash orc) = true ∧
      (processMvote orc env s vote).2 ≠ [.addedBudgetItem (vote.getHash orc)] := by
  have hforged := @processVote_of_forged _ _ (proposalKind orc) env s.proposals
    s.askedForSourceProposalOrBudget { vote with fValid := true } hnew hmn hsig
  simp only [processMvote, hforged]
  exact ⟨count_insert_self _ _ _, forged_effects_ne (k := proposalKind orc)⟩

theorem processFbvote_of_forged {vote : CFinalizedBudgetVote}
    (hnew : s.budgets.seenVotes.count (vote.getHash orc) = false)
    (hmn : (env.find vote.vin.prevout).isSome = true)
    (hsig : vote.signatureValid orc env.find = false) :
    (processFbvote orc env s vote).1.budgets.seenVotes.count (vote.getHash orc) = true ∧
      (processFbvote orc env s vote).2 ≠ [.addedBudgetItem (vote.getHash orc)] := by
  have hforged := @processVote_of_forged _ _ (budgetKind orc) env s.budgets
    s.askedForSourceProposalOrBudget vote hnew hmn hsig
  simp only [processFbvote, hforged]
  exact ⟨count_insert_self _ _ _, forged_effects_ne (k := budgetKind orc)⟩

theorem forged_mvote_harmless_iff {vote : CBudgetVote}
    (hmn : (env.find vote.vin.prevout).isSome = true)
    (hsig : vote.signatureValid orc env.find = false) :
    (∀ s' effects, processMessage orc env s (.mvote vote) = some (s', effects) →
      SameOutcomes orc s s') ↔
    env.handles = false ∨ s.proposals.seenVotes.count (vote.getHash orc) = true := by
  apply harmless_iff_of_filter
  · intro hon hseen
    exact ⟨_, (processMessage_mvote hon vote).trans (congrArg some (processMvote_of_seen hseen))⟩
  · intro hon hnew
    obtain ⟨hfilter, hne⟩ := processMvote_of_forged hnew hmn hsig
    exact ⟨(processMvote orc env s vote).1, (processMvote orc env s vote).2,
      processMessage_mvote hon vote, _, _,
      (processMessage_mvote hon vote).trans (congrArg some (processMvote_of_seen hfilter)),
      hne.symm⟩

theorem forged_fbvote_harmless_iff {vote : CFinalizedBudgetVote}
    (hmn : (env.find vote.vin.prevout).isSome = true)
    (hsig : vote.signatureValid orc env.find = false) :
    (∀ s' effects, processMessage orc env s (.fbvote vote) = some (s', effects) →
      SameOutcomes orc s s') ↔
    env.handles = false ∨ s.budgets.seenVotes.count (vote.getHash orc) = true := by
  apply harmless_iff_of_filter
  · intro hon hseen
    exact ⟨_, (processMessage_fbvote hon vote).trans (congrArg some (processFbvote_of_seen hseen))⟩
  · intro hon hnew
    obtain ⟨hfilter, hne⟩ := processFbvote_of_forged hnew hmn hsig
    exact ⟨(processFbvote orc env s vote).1, (processFbvote orc env s vote).2,
      processMessage_fbvote hon vote, _, _,
      (processMessage_fbvote hon vote).trans (congrArg some (processFbvote_of_seen hfilter)),
      hne.symm⟩

/-- A forged vote of a known masternode leaves the outcome of every later message as it is
exactly when the messages are not handled or a vote with its hash was seen before. -/
theorem forged_budget_vote_harmless_iff (orc : Oracles) (env : Env) (s : CBudgetManager) :
    (∀ vote : CBudgetVote, (env.find vote.vin.prevout).isSome = true →
      vote.signatureValid orc env.find = false →
      ((∀ s' effects, processMessage orc env s (.mvote vote) = some (s', effects) →
          SameOutcomes orc s s') ↔
        (env.fLiteMode = true ∨ env.isBlockchainSynced = false) ∨
          s.proposals.seenVotes.count (vote.getHash orc) = true)) ∧
    (∀ vote : CFinalizedBudgetVote, (env.find vote.vin.prevout).isSome = true →
      vote.signatureValid orc env.find = false →
      ((∀ s' effects, processMessage orc env s (.fbvote vote) = some (s', effects) →
          SameOutcomes orc s s') ↔
        (env.fLiteMode = true ∨ env.isBlockchainSynced = false) ∨
          s.budgets.seenVotes.count (vote.getHash orc) = true)) := by
  simp only [← handles_eq_false_iff]
  exact ⟨fun _ hmn hsig => forged_mvote_harmless_iff hmn hsig,
    fun _ hmn hsig => forged_fbvote_harmless_iff hmn hsig⟩

section Runs

/-- A node that knows the proposal. -/
def openNode : Option CBudgetManager :=
  step sampleHashes (some .init) (sampleEnv, .mprop sampleProposal)

/-- A yes of the masternode `50:0`. -/
def yesVote (sig : UInt8) : CBudgetVote := sampleVote 50 voteYes 1600000000 sig

def yeas (s : Option CBudgetManager) : Option ℤ :=
  s.bind fun s => (s.proposals.targets.find 43200).map CBudgetProposal.getYeas

/-- The genuine yes counts when it comes alone and is dropped after a forged one. -/
theorem forged_budget_vote_shuts_out_genuine :
    (yesVote 0).signatureValid sampleHashes sampleEnv.find = false ∧
      (yesVote 1).signatureValid sampleHashes sampleEnv.find = true ∧
      yeas (run (step sampleHashes) openNode [(sampleEnv, .mvote (yesVote 1))]) = some 1 ∧
      yeas (run (step sampleHashes) openNode
        [(sampleEnv, .mvote (yesVote 0)), (sampleEnv, .mvote (yesVote 1))]) = some 0 := by
  decide

theorem forged_budget_vote_harmless_iff_sample :
    ¬∀ s' effects,
      processMessage sampleHashes sampleEnv .init (.mvote (yesVote 0)) = some (s', effects) →
        SameOutcomes sampleHashes .init s' := by
  rw [(forged_budget_vote_harmless_iff sampleHashes sampleEnv .init).1 (yesVote 0) (by decide)
    (by decide)]
  decide

end Runs

end Scrypta.Budget
