import Mathlib.Data.List.Induction
import Scrypta.EarlyVotes

/-! Runs of the budget manager over valid proposals, finalized budgets and votes. Each kind sees
the run as a path of its own events. The orphan votes lie under the hash of their target, so only
the last of them is there when the target arrives. -/

namespace Scrypta.Budget

open Runs Spork

/-- A message as one of the two kinds sees it. -/
inductive Event (τ ν : Type)
  | target (t : τ)
  | vote (v : ν)
  | other

namespace Event

variable {τ ν : Type}

def target? : Event τ ν → Option τ
  | target t => some t
  | _ => none

def vote? : Event τ ν → Option ν
  | vote v => some v
  | _ => none

def targets (evs : List (Event τ ν)) : List τ := evs.filterMap target?

def votes (evs : List (Event τ ν)) : List ν := evs.filterMap vote?

@[simp] theorem targets_append (evs evs' : List (Event τ ν)) :
    targets (evs ++ evs') = targets evs ++ targets evs' :=
  List.filterMap_append

@[simp] theorem votes_append (evs evs' : List (Event τ ν)) :
    votes (evs ++ evs') = votes evs ++ votes evs' :=
  List.filterMap_append

@[simp] theorem targets_target (t : τ) : targets [(target t : Event τ ν)] = [t] := rfl

@[simp] theorem targets_vote (v : ν) : targets [(vote v : Event τ ν)] = [] := rfl

@[simp] theorem targets_other : targets [(other : Event τ ν)] = [] := rfl

@[simp] theorem votes_target (t : τ) : votes [(target t : Event τ ν)] = [] := rfl

@[simp] theorem votes_vote (v : ν) : votes [(vote v : Event τ ν)] = [v] := rfl

@[simp] theorem votes_other : votes [(other : Event τ ν)] = [] := rfl

theorem mem_votes {evs : List (Event τ ν)} {v : ν} : v ∈ votes evs ↔ vote v ∈ evs := by
  simp only [votes, List.mem_filterMap]
  constructor
  · rintro ⟨ev, hev, h⟩
    cases ev with
    | vote w => exact Option.some.inj h ▸ hev
    | target t => cases h
    | other => cases h
  · exact fun h => ⟨_, h, rfl⟩

theorem mem_targets {evs : List (Event τ ν)} {t : τ} : t ∈ targets evs ↔ target t ∈ evs := by
  simp only [targets, List.mem_filterMap]
  constructor
  · rintro ⟨ev, hev, h⟩
    cases ev with
    | target u => exact Option.some.inj h ▸ hev
    | vote w => cases h
    | other => cases h
  · exact fun h => ⟨_, h, rfl⟩

end Event

open Event

section Path

variable {τ ν : Type} (k : Kind τ ν) (mapVotes : τ → Dict Uint256 ν) (key : ν → Uint256)

/-- What one event may do to the tables. -/
def Moves (evs : List (Event τ ν)) (ev : Event τ ν) (b b' : Ballot τ ν) : Prop :=
  match ev with
  | .target t => TargetStep k mapVotes key (targets evs) (k.getHash t) b b'
  | .vote v => VoteStep k mapVotes key (votes evs) v b b'
  | .other => Same b b'

inductive Path : List (Event τ ν) → Ballot τ ν → Prop
  | nil : Path [] .empty
  | snoc {evs : List (Event τ ν)} {ev : Event τ ν} {b b' : Ballot τ ν} :
      Path evs b → Moves k mapVotes key evs ev b b' → Path (evs ++ [ev]) b'

/-- At most one vote on a target arrives before it. -/
def OneEarly (evs : List (Event τ ν)) : Prop :=
  ∀ pre, pre <+: evs → ∀ v ∈ votes pre, ∀ w ∈ votes pre, k.target v = k.target w →
    (∀ t ∈ targets pre, k.getHash t ≠ k.target v) → v = w

/-- Two votes of one masternode on one target are the same. -/
def OnePerVoter (evs : List (Event τ ν)) : Prop :=
  ∀ v ∈ votes evs, ∀ w ∈ votes evs, k.target v = k.target w → key v = key w → v = w

variable {k mapVotes key} {evs : List (Event τ ν)} {b : Ballot τ ν}

theorem Path.received (h : Path k mapVotes key evs b) :
    Received k mapVotes key (targets evs) (votes evs) b := by
  induction h with
  | nil => exact .empty
  | @snoc evs ev b b' _ hm ih =>
    rw [targets_append, votes_append]
    cases ev with
    | target t => simpa using ih.target hm
    | vote v => simpa using ih.vote hm
    | other => simpa using ih.same hm

theorem OneEarly.initial {evs' : List (Event τ ν)} (h : OneEarly k evs') (hp : evs <+: evs') :
    OneEarly k evs :=
  fun pre hpre => h pre (hpre.trans hp)

theorem OnePerVoter.initial {evs' : List (Event τ ν)} (h : OnePerVoter k key evs')
    (hp : evs <+: evs') : OnePerVoter k key evs :=
  fun v hv w hw => h v (mem_votes.mpr (hp.subset (mem_votes.mp hv))) w
    (mem_votes.mpr (hp.subset (mem_votes.mp hw)))

/-- While no two votes on a target are early, every vote is kept. -/
theorem Path.kept (h : Path k mapVotes key evs b) (hearly : OneEarly k evs)
    (hone : OnePerVoter k key evs) {v : ν} (hv : v ∈ votes evs) : Kept k mapVotes key v b := by
  induction h generalizing v with
  | nil => cases hv
  | @snoc evs ev b b' hpath hm ih =>
    have hpre : evs <+: evs ++ [ev] := List.prefix_append evs [ev]
    have hbefore : ∀ {w}, w ∈ votes evs → Kept k mapVotes key w b :=
      ih (hearly.initial hpre) (hone.initial hpre)
    cases ev with
    | target t =>
      have hv : v ∈ votes evs := by simpa using hv
      exact (hbefore hv).target hpath.received hm
    | other =>
      have hv : v ∈ votes evs := by simpa using hv
      exact (hbefore hv).same hm
    | vote u =>
      have hmem : ∀ w, w ∈ votes (evs ++ [.vote u]) ↔ w ∈ votes evs ∨ w = u := by
        intro w
        simp
      rcases (hmem v).mp hv with hv' | rfl
      · refine (hbefore hv').vote hv' (fun ht hk => ?_) (fun hnone ht => ?_) hm
        · exact hone u ((hmem u).mpr (Or.inr rfl)) v hv ht hk
        · refine hearly _ (List.prefix_refl _) u ((hmem u).mpr (Or.inr rfl)) v hv ht ?_
          intro t ht' heq
          have hts : t ∈ targets evs := by simpa using ht'
          have hsome := (hpath.received.targets (k.target v)).mpr ⟨t, hts, heq.trans ht⟩
          rw [hnone] at hsome
          cases hsome
      · exact hm.kept hbefore

/-- A vote that is lost after a prefix stays lost. -/
theorem Path.exists_prefix {pre : List (Event τ ν)} (h : Path k mapVotes key evs b)
    (hp : pre <+: evs) : ∃ b₀, Path k mapVotes key pre b₀ ∧
      ∀ v ∈ votes pre, Lost k mapVotes key v b₀ → Lost k mapVotes key v b := by
  induction h with
  | nil => exact ⟨_, by rw [List.prefix_nil.mp hp]; exact .nil, fun _ _ h => h⟩
  | @snoc evs ev b b' hpath hm ih =>
    rcases List.prefix_concat_iff.mp hp with heq | hp'
    · exact ⟨b', heq ▸ .snoc hpath hm, fun _ _ h => h⟩
    · obtain ⟨b₀, hb₀, hlost⟩ := ih hp'
      refine ⟨b₀, hb₀, fun v hv h => ?_⟩
      have hv' : v ∈ votes evs := mem_votes.mpr (hp'.subset (mem_votes.mp hv))
      cases ev with
      | target t => exact (hlost v hv h).target hm
      | vote u => exact (hlost v hv h).vote hv' hm
      | other => exact (hlost v hv h).same hm

/-- Before its target, a vote that does not wait is lost. -/
theorem lost_of_not_waits {v : ν} (h : Received k mapVotes key (targets evs) (votes evs) b)
    (habsent : ∀ t ∈ targets evs, k.getHash t ≠ k.target v)
    (hwaits : b.orphanVotes.find (k.target v) ≠ some v) : Lost k mapVotes key v b := by
  refine ⟨hwaits, fun t ht => ?_⟩
  rw [h.find_none habsent] at ht
  cases ht

/-- Every vote ends up recorded exactly when at most one vote on a target comes before it. -/
theorem Path.all_recorded_iff (h : Path k mapVotes key evs b) (hone : OnePerVoter k key evs)
    (hall : ∀ v ∈ votes evs, ∃ t ∈ targets evs, k.getHash t = k.target v) :
    (∀ v ∈ votes evs, ∃ t, b.targets.find (k.target v) = some t ∧
      (mapVotes t).find (key v) = some v) ↔ OneEarly k evs := by
  constructor
  · intro hrec pre hpre v hv w hw htarget habsent
    by_contra hvw
    obtain ⟨b₀, hb₀, hlost⟩ := h.exists_prefix hpre
    have hnotLost : ∀ u ∈ votes pre, ¬Lost k mapVotes key u b₀ := by
      intro u hu hl
      obtain ⟨t, ht, hcounts⟩ := hrec u (mem_votes.mpr (hpre.subset (mem_votes.mp hu)))
      exact (hlost u hu hl).countsNot t ht hcounts
    -- both votes would have to wait in one place
    have hwaits : ∀ u ∈ votes pre, k.target u = k.target v →
        b₀.orphanVotes.find (k.target v) = some u := by
      intro u hu hut
      by_contra hno
      refine hnotLost u hu (lost_of_not_waits hb₀.received ?_ ?_)
      · rw [hut]
        exact habsent
      · rw [hut]
        exact hno
    exact hvw (Option.some.inj ((hwaits v hv rfl).symm.trans (hwaits w hw htarget.symm)))
  · intro hearly v hv
    have hk := h.kept hearly hone hv
    obtain ⟨t, ht⟩ := Option.isSome_iff_exists.mp ((h.received.targets _).mpr (hall v hv))
    exact ⟨t, ht, hk.counts t ht⟩

end Path

section Kinds

variable {orc : Oracles}

theorem addOrUpdate_ok {ν : Type} {nTime : ν → ℤ} {voteHash hash : Uint256} {now : ℤ}
    {m m' : Dict Uint256 ν} {v : ν} (h : addOrUpdate nTime voteHash now m hash v = .ok m') :
    m' = m.set hash v := by
  unfold addOrUpdate at h
  split at h
  · cases h
  · exact (Except.ok.inj h).symm

theorem addOrUpdate_first {ν : Type} {nTime : ν → ℤ} {voteHash hash : Uint256} {now : ℤ}
    {m : Dict Uint256 ν} {v : ν} (hfirst : m.find hash = none) (htime : nTime v ≤ now + 60 * 60) :
    ∃ m', addOrUpdate nTime voteHash now m hash v = .ok m' := by
  have h := @addOrUpdate_of_le _ _ voteHash hash _ m _ htime
  rw [if_pos (by simp [hfirst])] at h
  cases hres : addOrUpdate nTime voteHash now m hash v with
  | error _ => rw [hres] at h; cases h
  | ok m' => exact ⟨m', rfl⟩

theorem map_ok {α β : Type} {x : Except String α} {f : α → β} {y : β} :
    x.map f = .ok y ↔ ∃ a, x = .ok a ∧ f a = y := by
  cases x with
  | error e => simp [Except.map]
  | ok a => simp [Except.map]

theorem CBudgetProposal.exists_isValid {env : Env} {p : CBudgetProposal} {proto : ℤ}
    (hproto : activeProtocol env.sporks = some proto)
    (hnone : p.validError orc env proto true = none) :
    ∃ p', p.isValid orc env true = some (.ok p') := by
  rw [CBudgetProposal.isValid, hproto, Option.map_some, hnone]
  exact ⟨_, rfl⟩

theorem CFinalizedBudget.exists_isValid {env : Env} {b : CFinalizedBudget}
    (hnone : b.validError orc env true = none) :
    ∃ b', (budgetKind orc).isValid env b = some (.ok b') := by
  change ∃ b', some (b.isValid orc env true) = some (.ok b')
  rw [CFinalizedBudget.isValid, hnone]
  exact ⟨_, rfl⟩

theorem proposalKind_lawful : (proposalKind orc).Lawful CBudgetProposal.mapVotes
    (fun v => orc.hashOutPoint v.vin.prevout) CBudgetVote.nTime where
  broadcast_votes _ := rfl
  broadcast_hash _ := rfl
  setTime_votes _ _ := rfl
  setTime_hash _ _ := rfl
  setTime_valid n h := by
    obtain ⟨proto, hproto, hnone, -⟩ := CBudgetProposal.isValid_ok h
    exact CBudgetProposal.exists_isValid hproto hnone
  isValid_votes h := by
    obtain ⟨_, _, _, n, rfl⟩ := CBudgetProposal.isValid_ok h
    rfl
  isValid_hash h := by
    obtain ⟨_, _, _, n, rfl⟩ := CBudgetProposal.isValid_ok h
    rfl
  isValid_again h := by
    obtain ⟨proto, hproto, hnone, n, rfl⟩ := CBudgetProposal.isValid_ok h
    exact CBudgetProposal.exists_isValid hproto hnone
  isValid_collateral h := proposal_collateral_of_isValid h
  update_votes h := by
    obtain ⟨m, hm, rfl⟩ := map_ok.mp h
    exact addOrUpdate_ok hm
  update_first hfirst htime := by
    obtain ⟨m, hm⟩ := addOrUpdate_first hfirst htime
    exact ⟨_, map_ok.mpr ⟨m, hm, rfl⟩⟩

theorem budgetKind_lawful : (budgetKind orc).Lawful CFinalizedBudget.mapVotes
    (fun v => orc.hashOutPoint v.vin.prevout) CFinalizedBudgetVote.nTime where
  broadcast_votes _ := rfl
  broadcast_hash _ := rfl
  setTime_votes _ _ := rfl
  setTime_hash _ _ := rfl
  setTime_valid n h := by
    obtain ⟨hnone, -⟩ := CFinalizedBudget.isValid_ok (Option.some.inj h)
    exact CFinalizedBudget.exists_isValid hnone
  isValid_votes h := by
    obtain ⟨_, n, rfl⟩ := CFinalizedBudget.isValid_ok (Option.some.inj h)
    rfl
  isValid_hash h := by
    obtain ⟨_, n, rfl⟩ := CFinalizedBudget.isValid_ok (Option.some.inj h)
    rfl
  isValid_again h := by
    obtain ⟨hnone, n, rfl⟩ := CFinalizedBudget.isValid_ok (Option.some.inj h)
    exact CFinalizedBudget.exists_isValid hnone
  isValid_collateral h := collateral_of_isValid (Option.some.inj h)
  update_votes h := by
    obtain ⟨m, hm, rfl⟩ := map_ok.mp h
    exact addOrUpdate_ok hm
  update_first hfirst htime := by
    obtain ⟨m, hm⟩ := addOrUpdate_first hfirst htime
    exact ⟨_, map_ok.mpr ⟨m, hm, rfl⟩⟩

end Kinds

section Manager

def proposalEvent : Message → Event CBudgetProposal CBudgetVote
  | .mprop p => .target p
  | .mvote v => .vote v
  | _ => .other

def budgetEvent : Message → Event CFinalizedBudget CFinalizedBudgetVote
  | .fbs b => .target b
  | .fbvote v => .vote v
  | _ => .other

/-- The messages of one kind are valid when they arrive: targets pass their checks and votes are
signed by a masternode and not dated more than an hour ahead; each vote is on a target of the run
and the only one of its masternode. What is hashed in the run has different hashes. -/
structure FairEvents {τ ν : Type} (orc : Oracles) (k : Kind τ ν) (nTime : ν → ℤ)
    (evs : List (Env × Event τ ν)) : Prop where
  valid : ∀ env t, (env, .target t) ∈ evs → ∃ t', k.isValid env (k.broadcast t) = some (.ok t')
  signed : ∀ env v, (env, .vote v) ∈ evs → k.signatureValid env.find v = true ∧
    (env.find (k.vin v).prevout).isSome = true
  notAhead : ∀ d ∈ evs, ∀ v ∈ votes (evs.map Prod.snd), nTime v ≤ d.1.now + 60 * 60
  hasTarget : ∀ v ∈ votes (evs.map Prod.snd),
    ∃ t ∈ targets (evs.map Prod.snd), k.getHash t = k.target v
  onePerVoter : ∀ v ∈ votes (evs.map Prod.snd), ∀ w ∈ votes (evs.map Prod.snd),
    k.target v = k.target w → (k.vin v).prevout = (k.vin w).prevout → v = w
  hashVote : ∀ v ∈ votes (evs.map Prod.snd), ∀ w ∈ votes (evs.map Prod.snd),
    k.voteHash v = k.voteHash w → v = w
  hashOutPoint : ∀ v ∈ votes (evs.map Prod.snd), ∀ w ∈ votes (evs.map Prod.snd),
    orc.hashOutPoint (k.vin v).prevout = orc.hashOutPoint (k.vin w).prevout →
      (k.vin v).prevout = (k.vin w).prevout

/-- A synced node receives valid messages. A vote that was just read has its flag set. -/
structure Fair (orc : Oracles) (ds : List (Env × Message)) : Prop where
  synced : ∀ d ∈ ds, d.1.handles = true ∧ d.1.isSynced = true
  fValid : ∀ vote, Message.mvote vote ∈ ds.map Prod.snd → vote.fValid = true
  proposals : FairEvents orc (proposalKind orc) CBudgetVote.nTime
    (ds.map fun d => (d.1, proposalEvent d.2))
  budgets : FairEvents orc (budgetKind orc) CFinalizedBudgetVote.nTime
    (ds.map fun d => (d.1, budgetEvent d.2))

variable {orc : Oracles} {ds : List (Env × Message)}

theorem Same.refl {τ ν : Type} (b : Ballot τ ν) : Same b b :=
  ⟨fun _ => rfl, fun _ => rfl, rfl, rfl⟩

/-- The two kinds after the messages `pre`. -/
def Paths (orc : Oracles) (pre : List (Env × Message)) (s : CBudgetManager) : Prop :=
  Path (proposalKind orc) CBudgetProposal.mapVotes (fun v => orc.hashOutPoint v.vin.prevout)
      (pre.map fun d => proposalEvent d.2) s.proposals ∧
    Path (budgetKind orc) CFinalizedBudget.mapVotes (fun v => orc.hashOutPoint v.vin.prevout)
      (pre.map fun d => budgetEvent d.2) s.budgets

/-- One target among valid messages. -/
theorem FairEvents.target_step {τ ν : Type} {k : Kind τ ν} {mapVotes : τ → Dict Uint256 ν}
    {nTime : ν → ℤ} (hk : k.Lawful mapVotes (fun v => orc.hashOutPoint (k.vin v).prevout) nTime)
    {evs : List (Env × Event τ ν)} (h : FairEvents orc k nTime evs)
    {pre : List (Event τ ν)} (hpre : pre <+: evs.map Prod.snd) {env : Env} {t : τ}
    (ht : (env, .target t) ∈ evs) {b : Ballot τ ν}
    (hr : Received k mapVotes (fun v => orc.hashOutPoint (k.vin v).prevout) (targets pre)
      (votes pre) b) :
    ∃ r, b.processTarget k env (k.broadcast t) = some r ∧
      Moves k mapVotes (fun v => orc.hashOutPoint (k.vin v).prevout) pre (.target t) b
        (if r.2.2 then r.1.checkOrphanVotes k env else r.1) := by
  obtain ⟨t', ht'⟩ := h.valid env t ht
  exact processTarget_step hk hr ht' fun v hv =>
    h.notAhead _ ht v (mem_votes.mpr (hpre.subset (mem_votes.mp hv)))

/-- One vote among valid messages. -/
theorem FairEvents.vote_step {τ ν : Type} {k : Kind τ ν} {mapVotes : τ → Dict Uint256 ν}
    {nTime : ν → ℤ} (hk : k.Lawful mapVotes (fun v => orc.hashOutPoint (k.vin v).prevout) nTime)
    {evs : List (Env × Event τ ν)} (h : FairEvents orc k nTime evs)
    {pre : List (Event τ ν)} (hpre : pre <+: evs.map Prod.snd) {env : Env} {v : ν}
    (hv : (env, .vote v) ∈ evs) (hsynced : env.isSynced = true) {b : Ballot τ ν}
    (hr : Received k mapVotes (fun v => orc.hashOutPoint (k.vin v).prevout) (targets pre)
      (votes pre) b) (asked : Dict Uint256 ℤ) :
    Moves k mapVotes (fun v => orc.hashOutPoint (k.vin v).prevout) pre (.vote v) b
      (b.processVote k env asked v).1 := by
  have hin : v ∈ votes (evs.map Prod.snd) := mem_votes.mpr (List.mem_map_of_mem hv)
  have hbefore : ∀ u ∈ votes pre, u ∈ votes (evs.map Prod.snd) :=
    fun u hu => mem_votes.mpr (hpre.subset (mem_votes.mp hu))
  obtain ⟨hsig, hmn⟩ := h.signed env v hv
  exact processVote_step hk hr hsynced hmn hsig (h.notAhead _ hv v hin)
    (fun u hu => h.hashVote u (hbefore u hu) v hin)
    fun u hu ht hkey => h.onePerVoter u (hbefore u hu) v hin ht
      (h.hashOutPoint u (hbefore u hu) v hin hkey)

theorem FairEvents.onePerVoter' {τ ν : Type} {k : Kind τ ν} {nTime : ν → ℤ}
    {evs : List (Env × Event τ ν)} (h : FairEvents orc k nTime evs) :
    OnePerVoter k (fun v => orc.hashOutPoint (k.vin v).prevout) (evs.map Prod.snd) :=
  fun v hv w hw ht hkey => h.onePerVoter v hv w hw ht (h.hashOutPoint v hv w hw hkey)

theorem map_snd_proposal (ds : List (Env × Message)) :
    (ds.map fun d => (d.1, proposalEvent d.2)).map Prod.snd =
      ds.map fun d => proposalEvent d.2 := by
  simp [Function.comp_def]

theorem map_snd_budget (ds : List (Env × Message)) :
    (ds.map fun d => (d.1, budgetEvent d.2)).map Prod.snd = ds.map fun d => budgetEvent d.2 := by
  simp [Function.comp_def]

theorem processMessage_of_handles {env : Env} (h : env.handles = true) (s : CBudgetManager)
    (m : Message) : processMessage orc env s m =
      match m with
      | .mprop p => processMprop orc env s p
      | .mvote v => some (processMvote orc env s v)
      | .fbs b => processFbs orc env s b
      | .fbvote v => some (processFbvote orc env s v) := by
  cases m <;> simp only [processMessage, h, Bool.not_true, Bool.false_eq_true, if_false]

/-- A valid message moves both kinds. -/
theorem paths_step (hfair : Fair orc ds) {pre : List (Env × Message)} {d : Env × Message}
    (hpre : pre ++ [d] <+: ds) {s : CBudgetManager} (h : Paths orc pre s) :
    ∃ s', step orc (some s) d = some s' ∧ Paths orc (pre ++ [d]) s' := by
  obtain ⟨env, m⟩ := d
  obtain ⟨hprops, hbudgets⟩ := h
  have hd : (env, m) ∈ ds := hpre.subset (by simp)
  obtain ⟨hon, hsynced⟩ := hfair.synced _ hd
  have hinit : pre <+: ds := (List.prefix_append _ _).trans hpre
  have hpreP : pre.map (fun d => proposalEvent d.2) <+:
      (ds.map fun d => (d.1, proposalEvent d.2)).map Prod.snd := by
    rw [map_snd_proposal]
    exact hinit.map _
  have hpreB : pre.map (fun d => budgetEvent d.2) <+:
      (ds.map fun d => (d.1, budgetEvent d.2)).map Prod.snd := by
    rw [map_snd_budget]
    exact hinit.map _
  have hinP : (env, proposalEvent m) ∈ ds.map fun d => (d.1, proposalEvent d.2) :=
    List.mem_map_of_mem (f := fun d : Env × Message => (d.1, proposalEvent d.2)) hd
  have hinB : (env, budgetEvent m) ∈ ds.map fun d => (d.1, budgetEvent d.2) :=
    List.mem_map_of_mem (f := fun d : Env × Message => (d.1, budgetEvent d.2)) hd
  have hend : ∀ s', Moves (proposalKind orc) CBudgetProposal.mapVotes
        (fun v => orc.hashOutPoint v.vin.prevout) (pre.map fun d => proposalEvent d.2)
        (proposalEvent m) s.proposals s'.proposals →
      Moves (budgetKind orc) CFinalizedBudget.mapVotes
        (fun v => orc.hashOutPoint v.vin.prevout) (pre.map fun d => budgetEvent d.2)
        (budgetEvent m) s.budgets s'.budgets →
      Paths orc (pre ++ [(env, m)]) s' := by
    intro s' hp hb
    simp only [Paths, List.map_append, List.map_cons, List.map_nil]
    exact ⟨.snoc hprops hp, .snoc hbudgets hb⟩
  simp only [step, Option.bind_some, processMessage_of_handles hon]
  cases m with
  | mprop p =>
    obtain ⟨r, hr, hmoves⟩ := hfair.proposals.target_step proposalKind_lawful hpreP hinP
      hprops.received
    refine ⟨if r.2.2 then CBudgetManager.checkOrphanVotes orc env { s with proposals := r.1 }
      else { s with proposals := r.1 }, by simp only [processMprop, hr, Option.map_some], ?_⟩
    cases hflag : r.2.2 with
    | false =>
      rw [hflag] at hmoves
      exact hend { s with proposals := r.1 } hmoves (Same.refl s.budgets)
    | true =>
      rw [hflag] at hmoves
      exact hend (CBudgetManager.checkOrphanVotes orc env { s with proposals := r.1 }) hmoves
        (recheck_same hbudgets.received)
  | fbs b =>
    obtain ⟨r, hr, hmoves⟩ := hfair.budgets.target_step budgetKind_lawful hpreB hinB
      hbudgets.received
    refine ⟨if r.2.2 then CBudgetManager.checkOrphanVotes orc env { s with budgets := r.1 }
      else { s with budgets := r.1 }, by simp only [processFbs, hr, Option.map_some], ?_⟩
    cases hflag : r.2.2 with
    | false =>
      rw [hflag] at hmoves
      exact hend { s with budgets := r.1 } (Same.refl s.proposals) hmoves
    | true =>
      rw [hflag] at hmoves
      exact hend (CBudgetManager.checkOrphanVotes orc env { s with budgets := r.1 })
        (recheck_same hprops.received) hmoves
  | mvote v =>
    have hread : { v with fValid := true } = v := by
      have := hfair.fValid v (List.mem_map_of_mem (f := Prod.snd) hd)
      cases v
      simp_all
    refine ⟨_, rfl, hend _ ?_ (Same.refl _)⟩
    simp only [processMvote, hread]
    exact hfair.proposals.vote_step proposalKind_lawful hpreP hinP hsynced hprops.received _
  | fbvote v =>
    refine ⟨_, rfl, hend _ (Same.refl _) ?_⟩
    exact hfair.budgets.vote_step budgetKind_lawful hpreB hinB hsynced hbudgets.received _

theorem paths_run (hfair : Fair orc ds) {pre : List (Env × Message)} (hpre : pre <+: ds) :
    ∃ s, run (step orc) (some .init) pre = some s ∧ Paths orc pre s := by
  induction pre using List.reverseRecOn with
  | nil => exact ⟨_, rfl, .nil, .nil⟩
  | append_singleton pre d ih =>
    obtain ⟨s, hs, hpaths⟩ := ih ((List.prefix_append _ _).trans hpre)
    obtain ⟨s', hs', hpaths'⟩ := paths_step hfair hpre hpaths
    exact ⟨s', by rw [run_append, hs, run_cons, run_nil, hs'], hpaths'⟩

/-- Every vote of the run is in `mapVotes` of its proposal or finalized budget. -/
structure AllRecorded (orc : Oracles) (ds : List (Env × Message)) : Prop where
  proposals : ∀ vote, Message.mvote vote ∈ ds.map Prod.snd →
    ∃ s p, run (step orc) (some .init) ds = some s ∧
      s.proposals.targets.find vote.nProposalHash = some p ∧
      p.mapVotes.find (orc.hashOutPoint vote.vin.prevout) = some vote
  budgets : ∀ vote, Message.fbvote vote ∈ ds.map Prod.snd →
    ∃ s b, run (step orc) (some .init) ds = some s ∧
      s.budgets.targets.find vote.nBudgetHash = some b ∧
      b.mapVotes.find (orc.hashOutPoint vote.vin.prevout) = some vote

/-- Whenever two votes on one proposal or finalized budget came before it, they are the same. -/
structure OneEarlyVote (orc : Oracles) (ds : List (Env × Message)) : Prop where
  proposals : ∀ pre, pre <+: ds.map Prod.snd → ∀ v w, Message.mvote v ∈ pre →
    Message.mvote w ∈ pre → v.nProposalHash = w.nProposalHash →
    (∀ p, Message.mprop p ∈ pre → p.getHash orc ≠ v.nProposalHash) → v = w
  budgets : ∀ pre, pre <+: ds.map Prod.snd → ∀ v w, Message.fbvote v ∈ pre →
    Message.fbvote w ∈ pre → v.nBudgetHash = w.nBudgetHash →
    (∀ b, Message.fbs b ∈ pre → b.getHash orc ≠ v.nBudgetHash) → v = w

theorem mem_votes_proposal {ms : List Message} {v : CBudgetVote} :
    v ∈ votes (ms.map proposalEvent) ↔ Message.mvote v ∈ ms := by
  rw [mem_votes, List.mem_map]
  constructor
  · rintro ⟨m, hm, h⟩
    cases m <;> cases h
    exact hm
  · exact fun h => ⟨_, h, rfl⟩

theorem mem_targets_proposal {ms : List Message} {p : CBudgetProposal} :
    p ∈ targets (ms.map proposalEvent) ↔ Message.mprop p ∈ ms := by
  rw [mem_targets, List.mem_map]
  constructor
  · rintro ⟨m, hm, h⟩
    cases m <;> cases h
    exact hm
  · exact fun h => ⟨_, h, rfl⟩

theorem mem_votes_budget {ms : List Message} {v : CFinalizedBudgetVote} :
    v ∈ votes (ms.map budgetEvent) ↔ Message.fbvote v ∈ ms := by
  rw [mem_votes, List.mem_map]
  constructor
  · rintro ⟨m, hm, h⟩
    cases m <;> cases h
    exact hm
  · exact fun h => ⟨_, h, rfl⟩

theorem mem_targets_budget {ms : List Message} {b : CFinalizedBudget} :
    b ∈ targets (ms.map budgetEvent) ↔ Message.fbs b ∈ ms := by
  rw [mem_targets, List.mem_map]
  constructor
  · rintro ⟨m, hm, h⟩
    cases m <;> cases h
    exact hm
  · exact fun h => ⟨_, h, rfl⟩

/-- A prefix of the events of a kind comes from a prefix of the messages. -/
theorem exists_prefix_of_map {α β : Type} {f : α → β} {l : List α} {pre : List β}
    (h : pre <+: l.map f) : ∃ pre', pre' <+: l ∧ pre'.map f = pre := by
  refine ⟨l.take pre.length, List.take_prefix _ _, ?_⟩
  rw [List.map_take]
  exact (List.prefix_iff_eq_take.mp h).symm

theorem oneEarlyVote_iff : OneEarlyVote orc ds ↔
    OneEarly (proposalKind orc) (ds.map fun d => proposalEvent d.2) ∧
      OneEarly (budgetKind orc) (ds.map fun d => budgetEvent d.2) := by
  have hp : (ds.map fun d => proposalEvent d.2) = (ds.map Prod.snd).map proposalEvent := by
    simp [Function.comp_def]
  have hb : (ds.map fun d => budgetEvent d.2) = (ds.map Prod.snd).map budgetEvent := by
    simp [Function.comp_def]
  rw [hp, hb]
  constructor
  · intro h
    refine ⟨fun pre hpre v hv w hw ht hno => ?_, fun pre hpre v hv w hw ht hno => ?_⟩
    · obtain ⟨ms, hms, rfl⟩ := exists_prefix_of_map hpre
      exact h.proposals ms hms v w (mem_votes_proposal.mp hv) (mem_votes_proposal.mp hw) ht
        fun p hp => hno p (mem_targets_proposal.mpr hp)
    · obtain ⟨ms, hms, rfl⟩ := exists_prefix_of_map hpre
      exact h.budgets ms hms v w (mem_votes_budget.mp hv) (mem_votes_budget.mp hw) ht
        fun b hb => hno b (mem_targets_budget.mpr hb)
  · rintro ⟨h₁, h₂⟩
    refine ⟨fun pre hpre v w hv hw ht hno => ?_, fun pre hpre v w hv hw ht hno => ?_⟩
    · exact h₁ _ (hpre.map _) v (mem_votes_proposal.mpr hv) w (mem_votes_proposal.mpr hw) ht
        fun p hp => hno p (mem_targets_proposal.mp hp)
    · exact h₂ _ (hpre.map _) v (mem_votes_budget.mpr hv) w (mem_votes_budget.mpr hw) ht
        fun b hb => hno b (mem_targets_budget.mp hb)

end Manager

section Runs

/-- Two masternodes vote on a proposal before it arrives. -/
def earlyVotes : List (Env × Message) :=
  [(sampleEnv, .mvote (sampleVote 50 voteYes 1600000000 1)),
    (sampleEnv, .mvote (sampleVote 51 voteYes 1600000000 1)),
    (sampleEnv, .mprop sampleProposal)]

theorem earlyVotes_events :
    (earlyVotes.map fun d => (d.1, proposalEvent d.2)) =
      [(sampleEnv, .vote (sampleVote 50 voteYes 1600000000 1)),
        (sampleEnv, .vote (sampleVote 51 voteYes 1600000000 1)),
        (sampleEnv, .target sampleProposal)] := rfl

theorem earlyVotes_fair : Fair sampleHashes earlyVotes where
  synced := by
    intro d hd
    simp only [earlyVotes, List.mem_cons, List.not_mem_nil, or_false] at hd
    rcases hd with rfl | rfl | rfl <;> decide
  fValid := by
    intro vote hvote
    simp only [earlyVotes, List.map_cons, List.map_nil, List.mem_cons, Message.mvote.injEq,
      reduceCtorEq, List.not_mem_nil, or_false] at hvote
    rcases hvote with rfl | rfl <;> rfl
  proposals := by
    have hvotes : votes ((earlyVotes.map fun d => (d.1, proposalEvent d.2)).map Prod.snd) =
        [sampleVote 50 voteYes 1600000000 1, sampleVote 51 voteYes 1600000000 1] := rfl
    have htargets : targets ((earlyVotes.map fun d => (d.1, proposalEvent d.2)).map Prod.snd) =
        [sampleProposal] := rfl
    refine ⟨?_, ?_, ?_, ?_, ?_, ?_, ?_⟩
    · intro env t ht
      simp only [earlyVotes_events, List.mem_cons, Prod.mk.injEq, reduceCtorEq, and_false,
        Event.target.injEq, List.not_mem_nil, or_false, false_or] at ht
      obtain ⟨rfl, rfl⟩ := ht
      exact ⟨_, rfl⟩
    · intro env v hv
      simp only [earlyVotes_events, List.mem_cons, Prod.mk.injEq, reduceCtorEq, and_false,
        Event.vote.injEq, List.not_mem_nil, or_false] at hv
      rcases hv with ⟨rfl, rfl⟩ | ⟨rfl, rfl⟩ <;> decide
    · rw [hvotes]
      intro d hd
      simp only [earlyVotes_events, List.mem_cons, List.not_mem_nil, or_false] at hd
      rcases hd with rfl | rfl | rfl <;> decide
    · rw [hvotes, htargets]
      intro v hv
      refine ⟨sampleProposal, List.mem_singleton.mpr rfl, ?_⟩
      rcases List.mem_pair.mp hv with rfl | rfl <;> rfl
    · rw [hvotes]
      decide
    · rw [hvotes]
      decide
    · rw [hvotes]
      decide
  budgets := by
    have hvotes : votes ((earlyVotes.map fun d => (d.1, budgetEvent d.2)).map Prod.snd) = [] := rfl
    have hevents : (earlyVotes.map fun d => (d.1, budgetEvent d.2)) =
        [(sampleEnv, .other), (sampleEnv, .other), (sampleEnv, .other)] := rfl
    refine ⟨?_, ?_, ?_, ?_, ?_, ?_, ?_⟩
    · intro env t ht
      simp [hevents] at ht
    · intro env v hv
      simp [hevents] at hv
    all_goals
      rw [hvotes]
      simp

end Runs

end Scrypta.Budget
