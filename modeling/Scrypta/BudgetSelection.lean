import Scrypta.BudgetCycles
import Scrypta.BudgetServing
import Scrypta.Toolkit.Greedy

/-! Which proposals the budget of the next cycle pays. They are sorted by their net votes, and each
one that qualifies is taken if the budget still has room for it. -/

namespace Scrypta.Budget

open Spork Kernel Runs

/-- A proposal with its key in `mapProposals`, by which a pointer to it is known. -/
abbrev KeyedProposal := Uint256 × CBudgetProposal

/-- `sortProposalsByVotes`: by votes, then by the hash of the fee transaction. -/
def sortProposalsByVotes (left right : KeyedProposal × ℤ) : Bool :=
  if left.2 ≠ right.2 then decide (right.2 < left.2)
  else decide (right.1.2.nFeeTXHash < left.1.2.nFeeTXHash)

/-- One does not come before another if it has fewer votes, or as many and no larger hash. -/
theorem not_before_iff {a b : KeyedProposal × ℤ} : sortProposalsByVotes b a = false ↔
    b.2 < a.2 ∨ b.2 = a.2 ∧ b.1.2.nFeeTXHash ≤ a.1.2.nFeeTXHash := by
  unfold sortProposalsByVotes
  split
  · next hne =>
    rw [decide_eq_false_iff_not, not_lt]
    exact ⟨fun hle => Or.inl (lt_of_le_of_ne hle hne),
      fun h => h.elim le_of_lt fun heq => absurd heq.1 hne⟩
  · next heq =>
    rw [ne_eq, not_not] at heq
    rw [decide_eq_false_iff_not, BitVec.not_lt]
    exact ⟨fun hle => Or.inr ⟨heq, hle⟩, fun h => h.elim (fun hlt => absurd heq hlt.ne) And.right⟩

/-- `std::sort` may leave what compares equal in any order. -/
structure Sorts (sort : List (KeyedProposal × ℤ) → List (KeyedProposal × ℤ)) : Prop where
  perm : ∀ l, (sort l).Perm l
  sorted : ∀ l, (sort l).Pairwise fun a b => sortProposalsByVotes b a = false

/-- `nAlloted` is a member of each proposal that stays from one call to the next. -/
structure Selection where
  vBudgetProposalsRet : List KeyedProposal
  nBudgetAllocated : CAmount
  nAlloted : Dict Uint256 CAmount

theorem sorts_insertionSort :
    Sorts (List.insertionSort fun a b => sortProposalsByVotes b a = false) where
  perm := List.perm_insertionSort _
  sorted := by
    have : Std.Total fun a b => sortProposalsByVotes b a = false := ⟨fun a b => by
      rw [not_before_iff, not_before_iff]
      rcases lt_trichotomy a.2 b.2 with hlt | heq | hlt
      · exact Or.inr (Or.inl hlt)
      · rcases BitVec.le_total a.1.2.nFeeTXHash b.1.2.nFeeTXHash with hle | hle
        · exact Or.inr (Or.inr ⟨heq, hle⟩)
        · exact Or.inl (Or.inr ⟨heq.symm, hle⟩)
      · exact Or.inl (Or.inl hlt)⟩
    have : IsTrans _ fun a b => sortProposalsByVotes b a = false := ⟨fun a b c hab hbc => by
      rw [not_before_iff] at hab hbc ⊢
      rcases hab with hab | ⟨hab, hle⟩
      · exact Or.inl (hbc.elim (fun hlt => hlt.trans hab) fun heq => heq.1.trans_lt hab)
      · rcases hbc with hbc | ⟨hbc, hle'⟩
        · exact Or.inl (hbc.trans_eq hab)
        · exact Or.inr ⟨hbc.trans hab, BitVec.le_trans hle' hle⟩⟩
    exact List.pairwise_insertionSort _

section Functions

variable (orc : Oracles) (env : Env)

def CBudgetProposal.isEstablished (p : CBudgetProposal) : Bool :=
  if env.networkID = .main then decide (p.nTime < env.now - 60 * 60 * 24)
  else decide (p.nTime < env.now - 60 * 5)

/-- The tests of the loop in their order; `none` when `ActiveProtocol` does not return. -/
def CBudgetProposal.qualifies (nBlockStart : ℤ) (p : CBudgetProposal) : Option Bool :=
  if p.fValid && p.inPeriod env nBlockStart then
    (activeProtocol env.sporks).map fun proto =>
      decide ((env.countEnabled proto).tdiv 10 < p.getYeas - p.getNays) && p.isEstablished env
  else some false

def allot (nTotalBudget : CAmount) (sel : Selection) (e : KeyedProposal) : Selection :=
  if toInt64 (e.2.nAmount + sel.nBudgetAllocated) ≤ nTotalBudget then {
      vBudgetProposalsRet := sel.vBudgetProposalsRet ++ [e]
      nBudgetAllocated := toInt64 (sel.nBudgetAllocated + e.2.nAmount)
      nAlloted := sel.nAlloted.set e.1 e.2.nAmount }
  else { sel with nAlloted := sel.nAlloted.set e.1 0 }

def consider (nBlockStart : ℤ) (nTotalBudget : CAmount) (sel : Selection) (e : KeyedProposal) :
    Option Selection :=
  (e.2.qualifies env nBlockStart).map fun q => if q then allot nTotalBudget sel e else sel

/-- The proposals after `CleanAndRemove(false)`. -/
def cleaned (proposals : List KeyedProposal) : List KeyedProposal :=
  proposals.map fun e => (e.1, (proposalSync orc).cleanAndRemove env e.2)

/-- `vBudgetPorposalsSort` -/
def ranked (sort : List (KeyedProposal × ℤ) → List (KeyedProposal × ℤ))
    (proposals : List KeyedProposal) : List KeyedProposal :=
  (sort ((cleaned orc env proposals).map fun e => (e, e.2.getYeas - e.2.getNays))).map Prod.fst

/-- `GetBudget`, with the proposals in the order of the map. -/
def getBudget (sort : List (KeyedProposal × ℤ) → List (KeyedProposal × ℤ))
    (proposals : List KeyedProposal) (nAlloted : Dict Uint256 CAmount) : Option Selection :=
  match env.chainActive.tip with
  | none => some ⟨[], 0, nAlloted⟩
  | some pindexPrev =>
    let nBlockStart := nextCycleStart env pindexPrev.height
    (ranked orc env sort proposals).foldlM
      (consider env nBlockStart (getTotalBudget env nBlockStart)) ⟨[], 0, nAlloted⟩

end Functions

/-! The amounts of the proposals. Whatever is added has been found valid, and nothing changes an
amount afterwards. -/

section Amounts

variable {τ ν : Type} {k : SyncKind τ ν} {P : τ → Prop} {env : Env}

/-- What is valid has the property, and votes, flags and times do not take it away. -/
structure SyncKind.Settles (k : SyncKind τ ν) (P : τ → Prop) : Prop where
  isValid : ∀ {env t t'}, k.isValid env t = some (.ok t') → P t'
  update : ∀ {now t t'} {v : ν}, k.addOrUpdateVote now t v = .ok t' → P t → P t'
  setVotes : ∀ {t} m, P t → P (k.setVotes t m)
  setValid : ∀ {t} b, P t → P (k.setValid t b)

/-- All that was added has the property. -/
def Ballot.All (b : Ballot τ ν) (P : τ → Prop) : Prop :=
  ∀ hash t, b.targets.find hash = some t → P t

theorem Ballot.All.set {b : Ballot τ ν} (h : b.All P) {t : τ} (ht : P t) (hash : Uint256) :
    { b with targets := b.targets.set hash t }.All P := by
  intro hash' t' hfind
  rcases Dict.find_set_cases hfind with ⟨-, rfl⟩ | ⟨-, hfind⟩
  · exact ht
  · exact h hash' t' hfind

variable (hk : k.Settles P)

include hk

theorem Ballot.All.applyVote {b b' : Ballot τ ν} (h : b.All P) {v : ν}
    (hb : b.applyVote k.toKind env v = some b') : b'.All P := by
  obtain ⟨t, ht, hb⟩ := Option.bind_eq_some_iff.mp hb
  obtain ⟨t', ht', rfl⟩ := Option.map_eq_some_iff.mp hb
  refine h.set ?_ _
  cases hupdate : k.addOrUpdateVote env.now t v with
  | error e =>
    rw [hupdate] at ht'
    cases ht'
  | ok t'' =>
    rw [hupdate] at ht'
    cases ht'
    exact hk.update hupdate (h _ t ht)

theorem Ballot.All.castVote {b : Ballot τ ν} (h : b.All P) (v : ν) :
    (b.castVote k env v).All P := by
  unfold Ballot.castVote
  split
  · next b' hb =>
    have hnext : b'.All P := h.applyVote hk hb
    exact hnext
  · exact h

theorem Ballot.All.checkOrphanVotes {b : Ballot τ ν} (h : b.All P) :
    (b.checkOrphanVotes k.toKind env).All P := by
  unfold Ballot.checkOrphanVotes
  generalize b.orphanVotes.toList = l
  induction l generalizing b with
  | nil => exact h
  | cons e l ih =>
    refine ih ?_
    unfold Ballot.checkOrphan
    split
    · next b' hb =>
      have hnext : b'.All P := h.applyVote hk hb
      exact hnext
    · exact h

theorem Ballot.All.add {b : Ballot τ ν} (h : b.All P) {t : τ} {r : Ballot τ ν × Bool}
    (hr : b.add k.toKind env t = some r) : r.1.All P := by
  obtain ⟨valid, hvalid, rfl⟩ := Option.map_eq_some_iff.mp hr
  cases valid with
  | error e => exact h
  | ok t' =>
    dsimp only
    split
    · exact h
    · exact h.set (hk.isValid hvalid) _

theorem Ballot.All.processTarget {b : Ballot τ ν} (h : b.All P) {t : τ}
    {r : Ballot τ ν × List Effect × Bool} (hr : b.processTarget k.toKind env t = some r) :
    r.1.All P := by
  unfold Ballot.processTarget at hr
  dsimp only at hr
  split at hr
  · obtain rfl := Option.some.inj hr
    exact h
  · split at hr
    · obtain rfl := Option.some.inj hr
      exact h
    · obtain ⟨valid, -, hr⟩ := Option.bind_eq_some_iff.mp hr
      cases valid with
      | error e =>
        obtain rfl := Option.some.inj hr
        exact h
      | ok t' =>
        obtain ⟨r', hr', rfl⟩ := Option.map_eq_some_iff.mp hr
        have hinserted : ∀ seen, Ballot.All { b with seen := seen } P := fun _ => h
        exact (hinserted _).add hk hr'

theorem Ballot.All.updateTarget {b : Ballot τ ν} (h : b.All P) (asked : Dict Uint256 ℤ) (v : ν) :
    (b.updateTarget k.toKind env asked v).1.All P := by
  unfold Ballot.updateTarget
  split
  · split
    · next b' hb => exact h.applyVote hk hb
    · exact h
  · split
    · exact h
    · dsimp only
      split
      · exact h
      · exact h

theorem Ballot.All.processVote {b : Ballot τ ν} (h : b.All P) (asked : Dict Uint256 ℤ) (v : ν) :
    (b.processVote k.toKind env asked v).1.All P := by
  have hinserted : Ballot.All { b with seenVotes := b.seenVotes.insert (k.voteHash v) v } P := h
  unfold Ballot.processVote
  dsimp only
  split
  · exact h
  · split
    · exact h
    · split
      · exact h
      · exact hinserted.updateTarget hk asked v

theorem Ballot.All.cleanVotes {b : Ballot τ ν} (h : b.All P) : (b.cleanVotes k env).All P := by
  intro hash t hfind
  change (b.targets.mapValues (k.cleanAndRemove env)).find hash = some t at hfind
  rw [Dict.find_mapValues] at hfind
  obtain ⟨t', ht', rfl⟩ := Option.map_eq_some_iff.mp hfind
  exact hk.setVotes _ (h hash t' ht')

theorem Ballot.All.revalidate {b b' : Ballot τ ν} (h : b.All P) {key : Uint256}
    (hb : b.revalidate k env key = some b') : b'.All P := by
  unfold Ballot.revalidate at hb
  split at hb
  · obtain rfl := Option.some.inj hb
    exact h
  · next t ht =>
    obtain ⟨valid, hvalid, rfl⟩ := Option.map_eq_some_iff.mp hb
    cases valid with
    | ok t' => exact h.set (hk.setValid _ (hk.isValid hvalid)) _
    | error e => exact h.set (hk.setValid _ (h key t ht)) _

theorem Ballot.All.matureAll {b b' : Ballot τ ν} (h : b.All P) (hb : b.matureAll k env = some b') :
    b'.All P := by
  refine foldlM_invariant (I := fun c : Ballot τ ν => c.All P) (fun c c' t _ hc hstep => ?_)
    (show Ballot.All { b with immature := [] } P from h) hb
  unfold Ballot.mature at hstep
  dsimp only at hstep
  split at hstep
  · obtain rfl := Option.some.inj hstep
    exact hc
  · obtain ⟨valid, -, hstep⟩ := Option.bind_eq_some_iff.mp hstep
    cases valid with
    | error e =>
      obtain rfl := Option.some.inj hstep
      exact hc
    | ok t' =>
      obtain ⟨r, hr, rfl⟩ := Option.map_eq_some_iff.mp hstep
      exact hc.add hk hr

end Amounts

section Priced

variable {orc : Oracles} {env : Env} {s s' : CBudgetManager}

/-- The bounds that `IsValid` puts on the amount of a proposal, for any budget. -/
def CBudgetProposal.Priced (p : CBudgetProposal) : Prop :=
  10 * coin ≤ p.nAmount ∧ p.nAmount ≤ 648000 * coin

theorem getTotalBudget_le (env : Env) (nHeight : ℤ) :
    getTotalBudget env nHeight ≤ 648000 * coin := by
  unfold getTotalBudget
  split
  · decide
  · split
    · decide
    · split
      · exact le_refl _
      · have hsubsidy := @totalBudgetSubsidy_le env nHeight
        generalize totalBudgetSubsidy env nHeight = nSubsidy at hsubsidy ⊢
        have hle : Int.tdiv nSubsidy 100 ≤ 50000000 :=
          Int.tdiv_le_tdiv (by decide : (0 : ℤ) < 100) hsubsidy
        change (Int.tdiv nSubsidy 100 * 10 * 1440 * 30 : ℤ) ≤ 648000 * 100000000
        omega

theorem totalBudgetSubsidy_nonneg (env : Env) (nHeight : ℤ) :
    0 ≤ totalBudgetSubsidy env nHeight := by
  have hif : ∀ {c : Prop} [Decidable c] {x y : CAmount}, 0 ≤ x → 0 ≤ y →
      0 ≤ (if c then x else y) := by
    intro c _ x y hx hy
    split
    · exact hx
    · exact hy
  unfold totalBudgetSubsidy
  repeat refine hif (by decide) ?_
  decide

theorem getTotalBudget_nonneg (env : Env) (nHeight : ℤ) : 0 ≤ getTotalBudget env nHeight := by
  unfold getTotalBudget
  split
  · decide
  · split
    · decide
    · split
      · decide
      · have hsubsidy := totalBudgetSubsidy_nonneg env nHeight
        generalize totalBudgetSubsidy env nHeight = nSubsidy at hsubsidy ⊢
        have hle : 0 ≤ Int.tdiv nSubsidy 100 := Int.tdiv_nonneg hsubsidy (by decide)
        change (0 : ℤ) ≤ Int.tdiv nSubsidy 100 * 10 * 1440 * 30
        omega

theorem priced_of_validError {p : CBudgetProposal} {proto : ℤ} {fCheckCollateral : Bool}
    (h : p.validError orc env proto fCheckCollateral = none) : p.Priced := by
  unfold CBudgetProposal.validError at h
  split_ifs at h with _ _ _ hleast _ _ _ hmost
  exact ⟨not_lt.mp hleast, (not_lt.mp hmost).trans (getTotalBudget_le env _)⟩

theorem proposals_settle (orc : Oracles) :
    (proposalSync orc).Settles CBudgetProposal.Priced where
  isValid h := by
    obtain ⟨proto, -, hnone, n, rfl⟩ := CBudgetProposal.isValid_ok h
    exact priced_of_validError hnone
  update h hp := by
    obtain ⟨m, -, rfl⟩ := map_ok.mp h
    exact hp
  setVotes _ h := h
  setValid _ h := h

/-- The proposals of the manager are priced. -/
def CBudgetManager.Priced (s : CBudgetManager) : Prop :=
  s.proposals.All CBudgetProposal.Priced

theorem priced_message (h : s.Priced) {m : Message} {r : CBudgetManager × List Effect}
    (hr : processMessage orc env s m = some r) : r.1.Priced := by
  have hsettle := proposals_settle orc
  unfold processMessage at hr
  split at hr
  · obtain rfl := Option.some.inj hr
    exact h
  · cases m with
    | mprop p =>
      obtain ⟨r', hr', rfl⟩ := Option.map_eq_some_iff.mp hr
      have hnext : r'.1.All CBudgetProposal.Priced := Ballot.All.processTarget hsettle h hr'
      dsimp only
      split
      · exact Ballot.All.checkOrphanVotes hsettle hnext
      · exact hnext
    | fbs b =>
      obtain ⟨r', hr', rfl⟩ := Option.map_eq_some_iff.mp hr
      dsimp only
      split
      · exact Ballot.All.checkOrphanVotes hsettle h
      · exact h
    | mvote v =>
      obtain rfl := Option.some.inj hr
      exact Ballot.All.processVote hsettle h _ _
    | fbvote v =>
      obtain rfl := Option.some.inj hr
      exact h

theorem priced_cleanProposals (h : s.Priced) : (s.cleanProposals orc env).Priced :=
  Ballot.All.cleanVotes (proposals_settle orc) h

theorem priced_submitFinalBudget (h : s.Priced) (nb : BlockInputs) :
    (submitFinalBudget orc env nb s).Priced := by
  have hclean : (s.cleanProposals orc env).Priced := priced_cleanProposals h
  unfold submitFinalBudget
  cases nb.payments with
  | none => exact h
  | some payments =>
    dsimp only
    split
    · exact hclean
    · split
      · exact hclean
      · cases nb.txidCollateral with
        | none => exact hclean
        | some txid =>
          dsimp only
          split
          · exact hclean
          · split
            · exact hclean
            · exact hclean

theorem priced_checkAndRemove (h : s.Priced)
    {auto : Uint256 → Option (Option CFinalizedBudgetVote)}
    (hs' : s.checkAndRemove orc env auto = some s') : s'.Priced := by
  obtain ⟨s₁, hs₁, hs'⟩ := Option.bind_eq_some_iff.mp hs'
  obtain ⟨proposals, hproposals, rfl⟩ := Option.map_eq_some_iff.mp hs'
  have hfirst : s₁.Priced := by
    refine foldlM_invariant (I := CBudgetManager.Priced) (fun c c' key _ hc hstep => ?_) h hs₁
    obtain ⟨budgets, -, rfl⟩ := Option.map_eq_some_iff.mp hstep
    dsimp only
    split
    · split
      · unfold autoCheck
        split
        · exact hc
        · exact priced_cleanProposals hc
        · exact priced_cleanProposals hc
      · exact hc
    · exact hc
  exact foldlM_invariant (I := fun c => c.All CBudgetProposal.Priced)
    (fun c c' key _ hc hstep => hc.revalidate (proposals_settle orc) hstep) hfirst hproposals

theorem priced_newBlock (h : s.Priced) {nb : BlockInputs} (hs' : newBlock orc env nb s = some s') :
    s'.Priced := by
  unfold newBlock at hs'
  split at hs'
  · obtain rfl := Option.some.inj hs'
    exact h
  split at hs'
  · obtain rfl := Option.some.inj hs'
    exact h
  have hsubmit : (submitFinalBudget orc env nb s).Priced := priced_submitFinalBudget h nb
  dsimp only at hs'
  split at hs'
  · obtain rfl := Option.some.inj hs'
    exact hsubmit
  generalize submitFinalBudget orc env nb s = s₁ at hs' hsubmit
  have hcleared : (if clears env nb then s₁.clearSeen else s₁).Priced := by
    split
    · exact hsubmit
    · exact hsubmit
  obtain ⟨s₂, hs₂, hs'⟩ := Option.bind_eq_some_iff.mp hs'
  have h₂ : s₂.Priced := priced_checkAndRemove hcleared hs₂
  obtain ⟨proposals, hp, hs'⟩ := Option.bind_eq_some_iff.mp hs'
  obtain ⟨budgets, -, rfl⟩ := Option.map_eq_some_iff.mp hs'
  exact (Ballot.All.cleanVotes (proposals_settle orc) h₂).matureAll (proposals_settle orc) hp

theorem priced_operate (h : s.Priced) {op : Operation} (hs' : operate orc env s op = some s') :
    s'.Priced := by
  have hsettle := proposals_settle orc
  cases op with
  | message m =>
    obtain ⟨r, hr, rfl⟩ := Option.map_eq_some_iff.mp hs'
    exact priced_message h hr
  | newBlock nb => exact priced_newBlock h hs'
  | submitBudget p =>
    unfold operate Budget.submitBudget at hs'
    dsimp only at hs'
    split at hs'
    · obtain rfl := Option.some.inj hs'
      exact h
    · obtain ⟨r, hr, rfl⟩ := Option.map_eq_some_iff.mp hs'
      have hinserted : ∀ seen, Ballot.All { s.proposals with seen := seen }
        CBudgetProposal.Priced := fun _ => h
      exact (hinserted _).add hsettle hr
  | castVote v =>
    obtain rfl := Option.some.inj hs'
    exact Ballot.All.castVote hsettle h v
  | castBudgetVote v =>
    obtain rfl := Option.some.inj hs'
    exact h
  | checkAndRemove auto => exact priced_checkAndRemove h hs'
  | cleanProposals =>
    obtain rfl := Option.some.inj hs'
    exact priced_cleanProposals h
  | clear =>
    obtain rfl := Option.some.inj hs'
    exact fun _ _ hfind => nomatch hfind

/-- In every run the amounts of the proposals stay within what `IsValid` allows. -/
theorem priced_run {es : List (Env × Operation)}
    (hs : run (operateStep orc) (some .init) es = some s) : s.Priced := by
  have hall : ∀ m, run (operateStep orc) (some .init) es = some m → m.Priced := by
    refine run_preserves (I := fun s => ∀ m : CBudgetManager, s = some m → m.Priced)
      (fun s e h m hm => ?_) (fun m hm => ?_) es
    · obtain ⟨s₀, rfl, hm⟩ := Option.bind_eq_some_iff.mp hm
      exact priced_operate (h s₀ rfl) hm
    · obtain rfl := Option.some.inj hm
      exact fun _ _ hfind => nomatch hfind
  exact hall s hs

end Priced

section Choice

variable {orc : Oracles} {env : Env} {nBlockStart : ℤ}
  {sort sort' : List (KeyedProposal × ℤ) → List (KeyedProposal × ℤ)}
  {proposals proposals' l : List KeyedProposal} {nAlloted : Dict Uint256 CAmount}

/-- The proposal is valid and established, covers the cycle, and its net votes are above a tenth of
the enabled masternodes. -/
structure Qualifies (env : Env) (nBlockStart : ℤ) (p : CBudgetProposal) : Prop where
  valid : p.fValid = true
  start : p.nBlockStart ≤ nBlockStart
  finish : cycleEnd env nBlockStart ≤ p.nBlockEnd
  approved : ∃ proto, activeProtocol env.sporks = some proto ∧
    env.countEnabled proto < 10 * (p.getYeas - p.getNays)
  established : p.isEstablished env = true

/-- What is selected of the ranked proposals: each once and qualified, together within the budget,
and what qualifies and is left out would have exceeded it with those selected before it. -/
structure GreedyChoice (env : Env) (nBlockStart : ℤ) (l : List KeyedProposal) (sel : Selection) :
    Prop where
  once : (sel.vBudgetProposalsRet.map Prod.fst).Nodup
  inOrder : sel.vBudgetProposalsRet.Sublist l
  qualified : ∀ e ∈ sel.vBudgetProposalsRet, Qualifies env nBlockStart e.2
  alloted : ∀ e ∈ sel.vBudgetProposalsRet, sel.nAlloted.find e.1 = some e.2.nAmount
  within : (sel.vBudgetProposalsRet.map fun e => (sel.nAlloted.find e.1).getD 0).sum ≤
    getTotalBudget env nBlockStart
  leftOut : ∀ before e after, l = before ++ e :: after → Qualifies env nBlockStart e.2 →
    e ∉ sel.vBudgetProposalsRet → getTotalBudget env nBlockStart < e.2.nAmount +
      ((before.filter fun r => r.1 ∈ sel.vBudgetProposalsRet.map Prod.fst).map fun r =>
        (sel.nAlloted.find r.1).getD 0).sum

/-- The tests come to what they should where `ActiveProtocol` returns or is not asked. -/
theorem qualifies_iff (hcount : ∀ proto, 0 ≤ env.countEnabled proto) {p : CBudgetProposal}
    {q : Bool} (h : p.qualifies env nBlockStart = some q) :
    q = true ↔ Qualifies env nBlockStart p := by
  unfold CBudgetProposal.qualifies CBudgetProposal.inPeriod at h
  have htenth : ∀ proto, (env.countEnabled proto).tdiv 10 < p.getYeas - p.getNays ↔
      env.countEnabled proto < 10 * (p.getYeas - p.getNays) := by
    intro proto
    have hdiv := Int.tdiv_eq_ediv_of_nonneg (hcount proto) (b := 10)
    omega
  split at h
  · next hfirst =>
    rw [Bool.and_eq_true, Bool.and_eq_true, decide_eq_true_iff, decide_eq_true_iff] at hfirst
    obtain ⟨proto, hproto, rfl⟩ := Option.map_eq_some_iff.mp h
    rw [Bool.and_eq_true, decide_eq_true_iff, htenth]
    constructor
    · exact fun hq => ⟨hfirst.1, hfirst.2.1, hfirst.2.2, ⟨proto, hproto, hq.1⟩, hq.2⟩
    · rintro ⟨-, -, -, ⟨proto', hproto', happroved⟩, hestablished⟩
      obtain rfl := Option.some.inj (hproto.symm.trans hproto')
      exact ⟨happroved, hestablished⟩
  · next hfirst =>
    obtain rfl := Option.some.inj h
    refine iff_of_false Bool.false_ne_true fun hq => hfirst ?_
    rw [Bool.and_eq_true, Bool.and_eq_true, decide_eq_true_iff, decide_eq_true_iff]
    exact ⟨hq.valid, hq.start, hq.finish⟩

theorem toInt64_allot {sel : Selection} {e : KeyedProposal} (hprice : e.2.Priced)
    (hlow : 0 ≤ sel.nBudgetAllocated) (hhigh : sel.nBudgetAllocated ≤ 648000 * coin) :
    toInt64 (e.2.nAmount + sel.nBudgetAllocated) = e.2.nAmount + sel.nBudgetAllocated ∧
      toInt64 (sel.nBudgetAllocated + e.2.nAmount) = sel.nBudgetAllocated + e.2.nAmount := by
  have hleast : (1000000000 : ℤ) ≤ e.2.nAmount := hprice.1
  have hmost : (64800000000000 : ℤ) ≥ e.2.nAmount := hprice.2
  have hlow' : (0 : ℤ) ≤ sel.nBudgetAllocated := hlow
  have hhigh' : (64800000000000 : ℤ) ≥ sel.nBudgetAllocated := hhigh
  exact ⟨toInt64_of_lt (by omega) (by omega), toInt64_of_lt (by omega) (by omega)⟩

/-- The allotments of the selection are the amounts, summed up. -/
structure Selection.Ok (nTotalBudget : CAmount) (sel : Selection) : Prop where
  alloted : ∀ e ∈ sel.vBudgetProposalsRet, sel.nAlloted.find e.1 = some e.2.nAmount
  low : 0 ≤ sel.nBudgetAllocated
  high : sel.nBudgetAllocated ≤ nTotalBudget

/-- An allotment to another proposal does not touch those of the selection. -/
theorem find_alloted {sel : Selection} {e x : KeyedProposal} {nTotalBudget nAmount : CAmount}
    (hok : sel.Ok nTotalBudget) (hnew : e.1 ∉ sel.vBudgetProposalsRet.map Prod.fst)
    (hx : x ∈ sel.vBudgetProposalsRet) :
    (sel.nAlloted.set e.1 nAmount).find x.1 = some x.2.nAmount := by
  rw [Dict.find_set, if_neg, hok.alloted x hx]
  exact fun heq => hnew (heq ▸ List.mem_map_of_mem hx)

theorem allot_eq {nTotalBudget : CAmount} (hbudget : nTotalBudget ≤ 648000 * coin)
    {sel : Selection} {e : KeyedProposal} (hprice : e.2.Priced) (hok : sel.Ok nTotalBudget)
    (hnew : e.1 ∉ sel.vBudgetProposalsRet.map Prod.fst) :
    (allot nTotalBudget sel e).Ok nTotalBudget ∧
      (e.2.nAmount + sel.nBudgetAllocated ≤ nTotalBudget →
        (allot nTotalBudget sel e).vBudgetProposalsRet = sel.vBudgetProposalsRet ++ [e] ∧
        (allot nTotalBudget sel e).nBudgetAllocated = sel.nBudgetAllocated + e.2.nAmount) ∧
      (¬e.2.nAmount + sel.nBudgetAllocated ≤ nTotalBudget →
        (allot nTotalBudget sel e).vBudgetProposalsRet = sel.vBudgetProposalsRet ∧
        (allot nTotalBudget sel e).nBudgetAllocated = sel.nBudgetAllocated) := by
  obtain ⟨hleft, hright⟩ := toInt64_allot hprice hok.low (hok.high.trans hbudget)
  have hpos : (0 : ℤ) ≤ e.2.nAmount := le_trans (by decide) hprice.1
  unfold allot
  rw [hleft, hright]
  split
  · next hfits =>
    refine ⟨⟨fun x hx => ?_, add_nonneg hok.low hpos, ?_⟩, fun _ => ⟨rfl, rfl⟩,
      fun hnot => absurd hfits hnot⟩
    · rcases List.mem_append.mp hx with hx | hx
      · exact find_alloted hok hnew hx
      · rw [List.mem_singleton.mp hx]
        exact Dict.find_set_self _ _ _
    · rwa [add_comm] at hfits
  · next hnot =>
    exact ⟨⟨fun x hx => find_alloted hok hnew hx, hok.low, hok.high⟩,
      fun hfits => absurd hfits hnot, fun _ => ⟨rfl, rfl⟩⟩

/-- The loop picks greedily from the proposals that qualify. -/
theorem foldlM_consider {nTotalBudget : CAmount} (hbudget : nTotalBudget ≤ 648000 * coin)
    (hprice : ∀ e ∈ l, e.2.Priced) {sel sel' : Selection} (hok : sel.Ok nTotalBudget)
    (hnodup : ((sel.vBudgetProposalsRet ++ l).map Prod.fst).Nodup)
    (h : l.foldlM (consider env nBlockStart nTotalBudget) sel = some sel') :
    sel'.vBudgetProposalsRet = sel.vBudgetProposalsRet ++
        Greedy.pick (fun e => e.2.nAmount) nTotalBudget sel.nBudgetAllocated
          (l.filter fun e => e.2.qualifies env nBlockStart == some true) ∧
      sel'.Ok nTotalBudget ∧ ∀ e ∈ l, ∃ q, e.2.qualifies env nBlockStart = some q := by
  induction l generalizing sel with
  | nil =>
    obtain rfl := Option.some.inj h
    exact ⟨(List.append_nil _).symm, hok, fun _ he => nomatch he⟩
  | cons e l ih =>
    rw [List.foldlM_cons] at h
    obtain ⟨sel₁, hstep, h⟩ := Option.bind_eq_some_iff.mp h
    obtain ⟨q, hq, hsel⟩ := Option.map_eq_some_iff.mp hstep
    have hrest : ∀ x ∈ l, x.2.Priced := fun x hx => hprice x (List.mem_cons_of_mem e hx)
    rw [List.map_append, List.map_cons] at hnodup
    obtain ⟨hkeys, hothers⟩ := List.nodup_middle.mp hnodup |> List.nodup_cons.mp
    have hnew : e.1 ∉ sel.vBudgetProposalsRet.map Prod.fst :=
      fun hmem => hkeys (List.mem_append_left _ hmem)
    have hsame : ((sel.vBudgetProposalsRet ++ l).map Prod.fst).Nodup := by
      rwa [List.map_append]
    have hasked : ∀ {r : ∀ x ∈ l, ∃ q, x.2.qualifies env nBlockStart = some q}, ∀ x ∈ e :: l,
        ∃ q, x.2.qualifies env nBlockStart = some q := by
      intro r x hx
      rcases List.mem_cons.mp hx with rfl | hx
      · exact ⟨q, hq⟩
      · exact r x hx
    rw [List.filter_cons, hq]
    cases q with
    | false =>
      obtain rfl : sel = sel₁ := hsel
      obtain ⟨hret, hok', hq'⟩ := ih hrest hok hsame h
      exact ⟨hret, hok', hasked (r := hq')⟩
    | true =>
      obtain rfl : allot nTotalBudget sel e = sel₁ := hsel
      obtain ⟨hok₁, hfit, hpass⟩ := allot_eq hbudget (hprice e List.mem_cons_self) hok hnew
      rw [beq_self_eq_true, if_pos rfl, Greedy.pick]
      split
      · next hfits =>
        obtain ⟨hret₁, hused₁⟩ := hfit hfits
        have hlonger : (((allot nTotalBudget sel e).vBudgetProposalsRet ++ l).map
            Prod.fst).Nodup := by
          rwa [hret₁, List.append_assoc, List.singleton_append, List.map_append, List.map_cons]
        obtain ⟨hret, hok', hq'⟩ := ih hrest hok₁ hlonger h
        refine ⟨?_, hok', hasked (r := hq')⟩
        rw [hret, hret₁, hused₁, List.append_assoc, List.singleton_append]
      · next hnot =>
        obtain ⟨hret₁, hused₁⟩ := hpass hnot
        rw [← hret₁] at hsame
        obtain ⟨hret, hok', hq'⟩ := ih hrest hok₁ hsame h
        refine ⟨?_, hok', hasked (r := hq')⟩
        rw [hret, hret₁, hused₁]

/-- From the whole loop, what was chosen. -/
theorem greedyChoice_of_foldlM (hcount : ∀ proto, 0 ≤ env.countEnabled proto)
    (hprice : ∀ e ∈ l, e.2.Priced) (hnodup : (l.map Prod.fst).Nodup) {sel : Selection}
    (h : l.foldlM (consider env nBlockStart (getTotalBudget env nBlockStart)) ⟨[], 0, nAlloted⟩ =
      some sel) : GreedyChoice env nBlockStart l sel := by
  have hstart : Selection.Ok (getTotalBudget env nBlockStart) ⟨[], 0, nAlloted⟩ :=
    ⟨fun _ he => absurd he List.not_mem_nil, le_refl _, getTotalBudget_nonneg env nBlockStart⟩
  obtain ⟨hret, hok, hasked⟩ := foldlM_consider (getTotalBudget_le env nBlockStart) hprice hstart
    hnodup h
  rw [List.nil_append] at hret
  have hsub : ∀ (used : ℤ) (l : List KeyedProposal), (Greedy.pick (fun e => e.2.nAmount)
      (getTotalBudget env nBlockStart) used
        (l.filter fun e => e.2.qualifies env nBlockStart == some true)).Sublist l :=
    fun used l => (Greedy.pick_sublist _ _ _ _).trans List.filter_sublist
  have hweigh : ∀ chosen : List KeyedProposal, chosen.Sublist sel.vBudgetProposalsRet →
      (chosen.map fun e => (sel.nAlloted.find e.1).getD 0).sum =
        Greedy.total (fun e : KeyedProposal => e.2.nAmount) chosen := by
    intro chosen hchosen
    refine congrArg List.sum (List.map_congr_left fun e he => ?_)
    rw [hok.alloted e (hchosen.subset he), Option.getD_some]
  have hlisted : sel.vBudgetProposalsRet.Sublist l := hret ▸ hsub 0 l
  refine ⟨(hlisted.map Prod.fst).nodup hnodup, hlisted, fun e he => ?_, hok.alloted, ?_,
    fun before e after hl hqualifies hout => ?_⟩
  · rw [hret] at he
    have hmem := (Greedy.pick_sublist _ _ _ _).subset he
    exact (qualifies_iff hcount (beq_iff_eq.mp (List.mem_filter.mp hmem).2)).mp rfl
  · rw [hweigh _ (List.Sublist.refl _), hret]
    have hfits : ∀ l : List KeyedProposal, 0 + Greedy.total (fun e => e.2.nAmount)
        (Greedy.pick (fun e => e.2.nAmount) (getTotalBudget env nBlockStart) 0 l) ≤
          getTotalBudget env nBlockStart :=
      fun l => Greedy.used_add_total_pick_le (getTotalBudget_nonneg env nBlockStart)
    simp only [zero_add] at hfits
    exact hfits _
  · subst hl
    have hq : (e.2.qualifies env nBlockStart == some true) = true := by
      obtain ⟨q, hq⟩ := hasked e (List.mem_append_right _ List.mem_cons_self)
      rw [hq, (qualifies_iff hcount hq).mpr hqualifies]
      rfl
    rw [List.filter_append, List.filter_cons, if_pos hq] at hret
    rw [hret] at hout
    have hexceeds := Greedy.lt_of_not_mem_pick hout
    rw [zero_add] at hexceeds
    rw [Greedy.pick_append] at hret
    have hrest : ∀ used : ℤ, (Greedy.pick (fun e => e.2.nAmount)
        (getTotalBudget env nBlockStart) used
          (e :: after.filter fun e => e.2.qualifies env nBlockStart == some true)).Sublist
        (e :: after) :=
      fun used => (Greedy.pick_sublist _ _ _ _).trans (List.filter_sublist.cons_cons e)
    have hbefore : before.filter (fun r => r.1 ∈ sel.vBudgetProposalsRet.map Prod.fst) =
        Greedy.pick (fun e => e.2.nAmount) (getTotalBudget env nBlockStart) 0
          (before.filter fun e => e.2.qualifies env nBlockStart == some true) := by
      rw [hret]
      exact Greedy.filter_key_mem hnodup (hsub 0 before) (hrest _)
    rw [hbefore, hweigh]
    · exact hexceeds
    · rw [hret]
      exact List.sublist_append_left _ _

/-- The ranking holds each proposal of the manager, the votes of unlisted masternodes taken out. -/
theorem ranked_perm (hsort : Sorts sort) :
    (ranked orc env sort proposals).Perm (cleaned orc env proposals) := by
  have hperm := (hsort.perm ((cleaned orc env proposals).map fun e =>
    (e, e.2.getYeas - e.2.getNays))).map Prod.fst
  have hfirst : (((cleaned orc env proposals).map fun e => (e, e.2.getYeas - e.2.getNays)).map
      Prod.fst) = cleaned orc env proposals := by
    rw [List.map_map]
    exact List.map_id _
  rwa [hfirst] at hperm

theorem ranked_sorted (hsort : Sorts sort) : (ranked orc env sort proposals).Pairwise fun a b =>
    sortProposalsByVotes (b, b.2.getYeas - b.2.getNays) (a, a.2.getYeas - a.2.getNays) = false := by
  have hvotes : ∀ x ∈ sort ((cleaned orc env proposals).map fun e =>
      (e, e.2.getYeas - e.2.getNays)), x = (x.1, x.1.2.getYeas - x.1.2.getNays) := by
    intro x hx
    obtain ⟨e, -, rfl⟩ := List.mem_map.mp ((hsort.perm _).subset hx)
    rfl
  refine List.pairwise_map.mpr ((hsort.sorted _).imp_of_mem fun {a b} ha hb hab => ?_)
  rwa [hvotes a ha, hvotes b hb] at hab

theorem cleaned_keys (proposals : List KeyedProposal) :
    (cleaned orc env proposals).map Prod.fst = proposals.map Prod.fst := by
  rw [cleaned, List.map_map]
  rfl

theorem cleaned_feeHashes (proposals : List KeyedProposal) :
    (cleaned orc env proposals).map (fun e => e.2.nFeeTXHash) =
      proposals.map fun e => e.2.nFeeTXHash := by
  rw [cleaned, List.map_map]
  rfl

/-- With distinct fee hashes no two proposals rank the same. -/
theorem ranked_eq (hsort : Sorts sort) (hsort' : Sorts sort') (hperm : proposals.Perm proposals')
    (hfees : (proposals.map fun e => e.2.nFeeTXHash).Nodup) :
    ranked orc env sort proposals = ranked orc env sort' proposals' := by
  have hcleaned : (cleaned orc env proposals).Perm (cleaned orc env proposals') := hperm.map _
  have hsame : (ranked orc env sort proposals).Perm (ranked orc env sort' proposals') :=
    (ranked_perm hsort).trans (hcleaned.trans (ranked_perm hsort').symm)
  have hdistinct : ((ranked orc env sort proposals).map fun e => e.2.nFeeTXHash).Nodup := by
    rw [((ranked_perm hsort).map _).nodup_iff, cleaned_feeHashes]
    exact hfees
  refine hsame.eq_of_pairwise (fun a b ha hb hab hba => ?_) (ranked_sorted hsort)
    (ranked_sorted hsort')
  refine List.inj_on_of_nodup_map hdistinct ha (hsame.mem_iff.mpr hb) ?_
  rw [not_before_iff] at hab hba
  rcases hab with hless | ⟨heq, hle⟩
  · rcases hba with hless' | ⟨heq', -⟩
    · exact absurd hless (lt_asymm hless')
    · exact absurd heq' hless.ne'
  · rcases hba with hless' | ⟨-, hle'⟩
    · exact absurd heq hless'.ne'
    · exact BitVec.le_antisymm hle' hle

/-- The loop comes to its end where `ActiveProtocol` returns. -/
theorem foldlM_consider_isSome (h : (activeProtocol env.sporks).isSome) (nTotalBudget : CAmount)
    (sel : Selection) : (l.foldlM (consider env nBlockStart nTotalBudget) sel).isSome := by
  induction l generalizing sel with
  | nil => rfl
  | cons e l ih =>
    obtain ⟨proto, hproto⟩ := Option.isSome_iff_exists.mp h
    have hq : ∃ q, e.2.qualifies env nBlockStart = some q := by
      unfold CBudgetProposal.qualifies
      split
      · rw [hproto]
        exact ⟨_, rfl⟩
      · exact ⟨_, rfl⟩
    obtain ⟨q, hq⟩ := hq
    rw [List.foldlM_cons, consider, hq]
    exact ih _

/-- In every run the budget of the next cycle is chosen greedily from the ranked proposals, and
the choice is the same for every order of the map where no two fee hashes agree. -/
theorem getBudget_greedy (orc : Oracles) (es : List (Env × Operation)) (s : CBudgetManager)
    (hs : run (operateStep orc) (some .init) es = some s) (env : Env)
    (hcount : ∀ proto, 0 ≤ env.countEnabled proto) :
    (∀ sort, Sorts sort → ∀ proposals, proposals.Perm s.proposals.targets.toList → ∀ nAlloted,
      ((activeProtocol env.sporks).isSome → (getBudget orc env sort proposals nAlloted).isSome) ∧
      ∀ sel, getBudget orc env sort proposals nAlloted = some sel →
        (env.chainActive.tip = none → sel.vBudgetProposalsRet = []) ∧
        ∀ pindexPrev, env.chainActive.tip = some pindexPrev →
          (ranked orc env sort proposals).Perm (cleaned orc env proposals) ∧
          ((ranked orc env sort proposals).Pairwise fun a b => sortProposalsByVotes
            (b, b.2.getYeas - b.2.getNays) (a, a.2.getYeas - a.2.getNays) = false) ∧
          GreedyChoice env (nextCycleStart env pindexPrev.height) (ranked orc env sort proposals)
            sel) ∧
    ((s.proposals.targets.toList.map fun e => e.2.nFeeTXHash).Nodup →
      ∀ sort sort', Sorts sort → Sorts sort' → ∀ proposals proposals',
        proposals.Perm s.proposals.targets.toList → proposals'.Perm s.proposals.targets.toList →
        ∀ nAlloted, getBudget orc env sort proposals nAlloted =
          getBudget orc env sort' proposals' nAlloted) := by
  refine ⟨fun sort hsort proposals hproposals nAlloted => ⟨fun hactive => ?_, fun sel hsel => ?_⟩,
    fun hfees sort sort' hsort hsort' proposals proposals' hproposals hproposals' nAlloted => ?_⟩
  · unfold getBudget
    split
    · rfl
    · exact foldlM_consider_isSome hactive _ _
  · unfold getBudget at hsel
    split at hsel
    · next htip =>
      obtain rfl := Option.some.inj hsel
      exact ⟨fun _ => rfl, fun pindexPrev htip' => nomatch htip.symm.trans htip'⟩
    · next pindexPrev htip =>
      refine ⟨fun hnone => (nomatch hnone.symm.trans htip), fun pindexPrev' htip' => ?_⟩
      obtain rfl := Option.some.inj (htip.symm.trans htip')
      have hperm : (ranked orc env sort proposals).Perm (cleaned orc env proposals) :=
        ranked_perm hsort
      refine ⟨hperm, ranked_sorted hsort, greedyChoice_of_foldlM hcount (fun e he => ?_) ?_ hsel⟩
      · obtain ⟨e', he', rfl⟩ := List.mem_map.mp (hperm.subset he)
        have hprice : e'.2.Priced :=
          priced_run hs _ _ (Dict.mem_toList.mp (hproposals.subset he'))
        exact hprice
      · rw [(hperm.map Prod.fst).nodup_iff, cleaned_keys, (hproposals.map Prod.fst).nodup_iff]
        exact Dict.nodup_keys _
  · have hfees' : (proposals.map fun e => e.2.nFeeTXHash).Nodup :=
      ((hproposals.map _).nodup_iff).mpr hfees
    unfold getBudget
    rw [ranked_eq hsort hsort' (hproposals.trans hproposals'.symm) hfees']

end Choice

section Samples

/-- The node of the samples a day later. -/
def laterEnv : Env := { sampleEnv with now := 1600100000 }

theorem getBudget_greedy_sample : ∃ s sel, afterRun votedRun = some s ∧
    getBudget sampleHashes laterEnv
        (List.insertionSort fun a b => sortProposalsByVotes b a = false)
        s.proposals.targets.toList .empty = some sel ∧
      sel.vBudgetProposalsRet.length = 1 ∧
      GreedyChoice laterEnv 43200 (ranked sampleHashes laterEnv
        (List.insertionSort fun a b => sortProposalsByVotes b a = false)
        s.proposals.targets.toList) sel := by
  have hselected : ((afterRun votedRun).bind fun s => (getBudget sampleHashes laterEnv
      (List.insertionSort fun a b => sortProposalsByVotes b a = false)
      s.proposals.targets.toList .empty).map fun sel => sel.vBudgetProposalsRet.length) =
        some 1 := by
    decide
  obtain ⟨s, hs, hsel⟩ := Option.bind_eq_some_iff.mp hselected
  obtain ⟨sel, hsel, hlength⟩ := Option.map_eq_some_iff.mp hsel
  have hgreedy := (getBudget_greedy sampleHashes votedRun s hs laterEnv fun _ =>
    (by decide : (0 : ℤ) ≤ 2)).1 _ sorts_insertionSort _ (List.Perm.refl _) .empty
  exact ⟨s, sel, hs, hsel, hlength, ((hgreedy.2 sel hsel).2 _ rfl).2.2⟩

end Samples

end Scrypta.Budget
