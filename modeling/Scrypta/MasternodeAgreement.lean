import Scrypta.MasternodeEntries
import Scrypta.MasternodeScores

/-! Two nodes on one chain and with one masternode list. Their histories do not matter as long as
no block was replaced whose hash they had asked for. -/

namespace Scrypta.Ranking

open Runs Standings Spork

/-! Entries after their checks. -/

section Turns

variable {orc : Oracles} {env : Env}

theorem check_of_recent {env : Masternodes.Env} {mn : Masternodes.CMasternode}
    (h : env.shutdownRequested = true ∨ env.now - mn.lastTimeChecked < Masternodes.checkSeconds) :
    mn.check env false = mn := by
  rw [Masternodes.CMasternode.check]
  rcases h with hshut | hrecent
  · rw [if_pos hshut]
  · simp [hrecent]

/-- A second check at the same time does nothing. -/
theorem check_check (env : Env) (mn : CMasternode) : (mn.check env).check env = mn.check env := by
  obtain ⟨mn, age, ageBlock⟩ := mn
  have hagain : (mn.check env.toEnv false).check env.toEnv false = mn.check env.toEnv false := by
    by_cases h : env.shutdownRequested = true ∨
        env.now - mn.lastTimeChecked < Masternodes.checkSeconds
    · rw [check_of_recent h, check_of_recent h]
    · obtain ⟨hshut, hdue⟩ := not_or.mp h
      have hchecked : (mn.check env.toEnv false).lastTimeChecked = env.now := by
        simp [Masternodes.CMasternode.check, hshut, hdue]
      refine check_of_recent (Or.inr ?_)
      rw [hchecked, sub_self]
      decide
  simp only [CMasternode.check, hagain]

/-- What the loops may change of an entry: it is checked, and its input's age is kept. -/
def Touched (env : Env) (mn mn' : CMasternode) : Prop :=
  ∃ age ageBlock, mn' = { mn.check env with cacheInputAge := age, cacheInputAgeBlock := ageBlock }

theorem touched_check (mn : CMasternode) : Touched env mn (mn.check env) := ⟨_, _, rfl⟩

theorem Touched.check {mn mn' : CMasternode} (h : Touched env mn mn') :
    Touched env mn (mn'.check env) := by
  obtain ⟨age, ageBlock, rfl⟩ := h
  have hcheck : (mn.check env).toCMasternode.check env.toEnv false = (mn.check env).toCMasternode :=
    congrArg CMasternode.toCMasternode (check_check env mn)
  refine ⟨age, ageBlock, ?_⟩
  simp only [CMasternode.check] at hcheck ⊢
  rw [hcheck]

@[simp] theorem check_vin (mn : CMasternode) : (mn.check env).vin = mn.vin :=
  Masternodes.check_vin false mn.toCMasternode

theorem check_owner (env : Env) (mn : CMasternode) :
    (mn.check env).sigTime = mn.sigTime ∧
      (mn.check env).pubKeyCollateralAddress = mn.pubKeyCollateralAddress := by
  change (mn.toCMasternode.check env.toEnv false).sigTime = _ ∧
    (mn.toCMasternode.check env.toEnv false).pubKeyCollateralAddress = _
  unfold Masternodes.CMasternode.check
  split
  · exact ⟨rfl, rfl⟩
  · split <;> exact ⟨rfl, rfl⟩

theorem Touched.vin {mn mn' : CMasternode} (h : Touched env mn mn') : mn'.vin = mn.vin := by
  obtain ⟨age, ageBlock, rfl⟩ := h
  exact check_vin mn

theorem Touched.counts {mn mn' : CMasternode} (h : Touched env mn mn') (minProtocol : ℤ) :
    counts minProtocol (mn'.check env) = counts minProtocol (mn.check env) := by
  obtain ⟨age, ageBlock, heq⟩ := h.check
  rw [heq]
  rfl

theorem Touched.owner {mn mn' : CMasternode} (h : Touched env mn mn') (orc : Oracles) :
    entryHash orc mn' = entryHash orc mn ∧ payeeScript orc mn' = payeeScript orc mn := by
  have hvin := h.vin
  obtain ⟨age, ageBlock, rfl⟩ := h
  obtain ⟨htime, hkey⟩ := check_owner env mn
  constructor
  · change orc.hashPing (mn.check env).vin (mn.check env).sigTime = orc.hashPing mn.vin mn.sigTime
    rw [check_vin, htime]
  · change Masternodes.CMasternodeBroadcast.payeeScript orc.toOracles
      (mn.check env).pubKeyCollateralAddress = _
    rw [hkey]
    rfl

/-- The node after a loop over its entries: each of them was touched, and nothing else. -/
structure Turned (env : Env) (node node' : Node) : Prop where
  chain : node'.chainActive = node.chainActive
  cache : node'.mapCacheBlockHashes = node.mapCacheBlockHashes
  list : ∃ f : CMasternode → CMasternode, (∀ mn, Touched env mn (f mn)) ∧
    node'.vMasternodes = node.vMasternodes.map f

variable {node node' : Node}

theorem turned_checkAll (node : Node) : Turned env node (checkAll env node) :=
  ⟨rfl, rfl, _, touched_check, rfl⟩

theorem Turned.countEnabled (h : Turned env node node') :
    (countEnabled env node').1 = (countEnabled env node).1 := by
  obtain ⟨f, hf, hlist⟩ := h.list
  have hcounts : counts env.minMasternodePaymentsProto ∘ (CMasternode.check env) ∘ f =
      counts env.minMasternodePaymentsProto ∘ (CMasternode.check env) := by
    funext mn
    exact (hf mn).counts _
  change List.countP _ (node'.vMasternodes.map _) = List.countP _ (node.vMasternodes.map _)
  rw [hlist, List.map_map, List.countP_map, List.countP_map]
  exact congrArg (fun p => List.countP p node.vMasternodes) hcounts

theorem Turned.secondsSincePayment (h : Turned env node node') {mn mn' : CMasternode}
    (hmn : Touched env mn mn') :
    secondsSincePayment orc env node' mn' = secondsSincePayment orc env node mn := by
  obtain ⟨hhash, hpayee⟩ := hmn.owner orc
  have hpaid : getLastPaid orc env node' mn' = getLastPaid orc env node mn := by
    rw [getLastPaid, getLastPaid, hhash, hpayee, h.countEnabled, h.chain]
  rw [Ranking.secondsSincePayment, Ranking.secondsSincePayment, hpaid, hhash]

/-- One turn of the queue's loop leaves an entry touched, and what it puts into the vector is the
waiting time of an enabled entry. -/
theorem enqueue_spec (h : Turned env node node') (nBlockHeight : ℤ) (fFilterSigTime : Bool)
    (nMnCount : ℕ) (mn : CMasternode) :
    Touched env mn (enqueue orc env node' nBlockHeight fFilterSigTime nMnCount (mn.check env)).2 ∧
      ∀ s, (enqueue orc env node' nBlockHeight fFilterSigTime nMnCount (mn.check env)).1 = some s →
        counts env.minMasternodePaymentsProto (mn.check env) = true ∧
          s = (secondsSincePayment orc env node mn, mn.vin) := by
  rw [enqueue, check_check]
  by_cases hwaiting : isWaiting orc env node' nBlockHeight fFilterSigTime nMnCount
      (mn.check env) = true
  · have hcounts : counts env.minMasternodePaymentsProto (mn.check env) = true := by
      simp only [isWaiting, Bool.and_eq_true] at hwaiting
      simp only [counts, Bool.and_eq_true]
      exact ⟨hwaiting.1.1.2, hwaiting.1.1.1⟩
    have hage : Touched env mn (getMasternodeInputAge env node' (mn.check env)).2 := by
      unfold getMasternodeInputAge
      split
      · exact touched_check mn
      · by_cases hzero : (mn.check env).cacheInputAge = 0
        · simp only [if_pos hzero]
          exact ⟨_, _, rfl⟩
        · simp only [if_neg hzero]
          exact touched_check mn
    simp only [if_pos hwaiting]
    by_cases hyoung : (getMasternodeInputAge env node' (mn.check env)).1 < nMnCount
    · simp only [if_pos hyoung]
      exact ⟨hage, fun s hs => nomatch hs⟩
    · simp only [if_neg hyoung]
      refine ⟨hage, fun s hs => ⟨hcounts, ?_⟩⟩
      obtain rfl := Option.some.inj hs
      rw [h.secondsSincePayment hage, hage.vin]
  · simp only [if_neg hwaiting]
    exact ⟨touched_check mn, fun s hs => nomatch hs⟩

theorem Turned.trans {nodeA nodeB nodeC : Node} (h : Turned env nodeA nodeB)
    (h' : Turned env nodeB nodeC) : Turned env nodeA nodeC where
  chain := h'.chain.trans h.chain
  cache := h'.cache.trans h.cache
  list := by
    obtain ⟨f, hf, hlist⟩ := h.list
    obtain ⟨g, hg, hlist'⟩ := h'.list
    refine ⟨g ∘ f, fun mn => ?_, by rw [hlist', hlist, List.map_map]⟩
    obtain ⟨age, ageBlock, heq⟩ := hg (f mn)
    obtain ⟨age', ageBlock', heq'⟩ := (hf mn).check
    refine ⟨age, ageBlock, ?_⟩
    rw [Function.comp_apply, heq, heq']

theorem collect_turned (orc : Oracles) (env : Env) (node : Node) (nBlockHeight : ℤ)
    (fFilterSigTime : Bool) :
    Turned env node (collect orc env node nBlockHeight fFilterSigTime).2.2 := by
  refine ⟨rfl, rfl, fun mn => (enqueue orc env (checkAll env node) nBlockHeight fFilterSigTime
    (countEnabled env node).1 (mn.check env)).2, fun mn => ?_, ?_⟩
  · exact (enqueue_spec (turned_checkAll node) nBlockHeight fFilterSigTime _ mn).1
  · change ((node.vMasternodes.map (·.check env)).map _).map Prod.snd = _
    rw [List.map_map, List.map_map]
    rfl

theorem mem_collect {nBlockHeight : ℤ} {fFilterSigTime : Bool} {s : ℤ × CTxIn}
    (h : s ∈ (collect orc env node nBlockHeight fFilterSigTime).1) :
    ∃ mn ∈ node.vMasternodes, counts env.minMasternodePaymentsProto (mn.check env) = true ∧
      s = (secondsSincePayment orc env node mn, mn.vin) := by
  change s ∈ ((node.vMasternodes.map (·.check env)).map _).filterMap Prod.fst at h
  simp only [List.mem_filterMap, List.mem_map] at h
  obtain ⟨_, ⟨_, ⟨mn, hmn, rfl⟩, rfl⟩, hs⟩ := h
  exact ⟨mn, hmn, (enqueue_spec (turned_checkAll node) nBlockHeight fFilterSigTime _ mn).2 s hs⟩

/-- No two enabled masternodes have waited equally long. -/
def WaitsApart (orc : Oracles) (env : Env) (node : Node) : Prop :=
  ∀ mn ∈ node.vMasternodes, ∀ mn' ∈ node.vMasternodes,
    counts env.minMasternodePaymentsProto (mn.check env) = true →
    counts env.minMasternodePaymentsProto (mn'.check env) = true →
    secondsSincePayment orc env node mn = secondsSincePayment orc env node mn' → mn.vin = mn'.vin

theorem Turned.waitsApart (h : Turned env node node') (hapart : WaitsApart orc env node) :
    WaitsApart orc env node' := by
  obtain ⟨f, hf, hlist⟩ := h.list
  intro x hx y hy hcx hcy hsec
  rw [hlist] at hx hy
  obtain ⟨mn, hmn, rfl⟩ := List.mem_map.mp hx
  obtain ⟨mn', hmn', rfl⟩ := List.mem_map.mp hy
  rw [(hf mn).counts] at hcx
  rw [(hf mn').counts] at hcy
  rw [h.secondsSincePayment (hf mn), h.secondsSincePayment (hf mn')] at hsec
  rw [(hf mn).vin, (hf mn').vin]
  exact hapart mn hmn mn' hmn' hcx hcy hsec

theorem WaitsApart.collect (hapart : WaitsApart orc env node) (nBlockHeight : ℤ)
    (fFilterSigTime : Bool) :
    ∀ s ∈ (collect orc env node nBlockHeight fFilterSigTime).1,
      ∀ t ∈ (collect orc env node nBlockHeight fFilterSigTime).1, s.1 = t.1 → s = t := by
  intro s hs t ht heq
  obtain ⟨mn, hmn, hcounts, rfl⟩ := mem_collect hs
  obtain ⟨mn', hmn', hcounts', rfl⟩ := mem_collect ht
  exact Prod.ext heq (hapart mn hmn mn' hmn' hcounts hcounts' heq)

end Turns

/-! Two nodes with one chain, and with the same entries in any order. -/

section Alike

variable {orc : Oracles} {env : Env} {srt : Sorting} {a b : Node} {nBlockHeight : ℤ}

structure Alike (a b : Node) : Prop where
  chain : a.chainActive = b.chainActive
  list : a.vMasternodes.Perm b.vMasternodes

/-- The list has one entry for an outpoint. -/
def Distinct (vMasternodes : List CMasternode) : Prop :=
  (vMasternodes.map fun mn => mn.vin.prevout).Nodup

instance (vMasternodes : List CMasternode) : Decidable (Distinct vMasternodes) :=
  inferInstanceAs (Decidable (List.Nodup _))

theorem Alike.checkAll (h : Alike a b) : Alike (checkAll env a) (checkAll env b) :=
  ⟨h.chain, h.list.map _⟩

theorem Alike.countEnabled (h : Alike a b) : (countEnabled env a).1 = (countEnabled env b).1 :=
  h.checkAll.list.countP_eq _

theorem Alike.secondsSincePayment (h : Alike a b) (mn : CMasternode) :
    secondsSincePayment orc env a mn = secondsSincePayment orc env b mn := by
  have hpaid : getLastPaid orc env a mn = getLastPaid orc env b mn := by
    rw [getLastPaid, getLastPaid, h.countEnabled, h.chain]
  rw [Ranking.secondsSincePayment, Ranking.secondsSincePayment, hpaid]

theorem Alike.enqueue (h : Alike a b) (fFilterSigTime : Bool) (nMnCount : ℕ) :
    enqueue orc env a nBlockHeight fFilterSigTime nMnCount =
      enqueue orc env b nBlockHeight fFilterSigTime nMnCount := by
  funext mn
  have hscheduled : ∀ mn, isScheduled orc env a mn nBlockHeight =
      isScheduled orc env b mn nBlockHeight := fun mn => by
    rw [isScheduled, isScheduled, h.chain]
  have hage : ∀ mn, getMasternodeInputAge env a mn = getMasternodeInputAge env b mn := fun mn => by
    rw [getMasternodeInputAge, getMasternodeInputAge, h.chain]
  have hwaiting : ∀ mn, isWaiting orc env a nBlockHeight fFilterSigTime nMnCount mn =
      isWaiting orc env b nBlockHeight fFilterSigTime nMnCount mn := fun mn => by
    rw [isWaiting, isWaiting, hscheduled]
  have hwait : Ranking.secondsSincePayment orc env a = Ranking.secondsSincePayment orc env b :=
    funext h.secondsSincePayment
  rw [Ranking.enqueue, Ranking.enqueue, hwaiting, hage, hwait]

theorem Alike.collect (h : Alike a b) (orc : Oracles) (env : Env) (nBlockHeight : ℤ)
    (fFilterSigTime : Bool) :
    (collect orc env a nBlockHeight fFilterSigTime).1.Perm
        (collect orc env b nBlockHeight fFilterSigTime).1 ∧
      (collect orc env a nBlockHeight fFilterSigTime).2.1 =
        (collect orc env b nBlockHeight fFilterSigTime).2.1 ∧
      Alike (collect orc env a nBlockHeight fFilterSigTime).2.2
        (collect orc env b nBlockHeight fFilterSigTime).2.2 := by
  have hturns : ((Ranking.checkAll env a).vMasternodes.map
      (Ranking.enqueue orc env (Ranking.checkAll env a) nBlockHeight fFilterSigTime
        (Ranking.countEnabled env a).1)).Perm
      ((Ranking.checkAll env b).vMasternodes.map
      (Ranking.enqueue orc env (Ranking.checkAll env b) nBlockHeight fFilterSigTime
        (Ranking.countEnabled env b).1)) := by
    rw [h.countEnabled, h.checkAll.enqueue]
    exact h.checkAll.list.map _
  exact ⟨hturns.filterMap _, h.countEnabled, h.chain, hturns.map _⟩

theorem Alike.find (h : Alike a b) (hdistinct : Distinct a.vMasternodes) (vin : CTxIn) :
    find a vin = find b vin := by
  have hunique := List.inj_on_of_nodup_map hdistinct
  cases hb : Ranking.find b vin with
  | none =>
    refine List.find?_eq_none.mpr fun mn hmn => ?_
    exact List.find?_eq_none.mp hb mn (h.list.mem_iff.mp hmn)
  | some mn' =>
    have hmem : mn' ∈ a.vMasternodes := h.list.mem_iff.mpr (List.mem_of_find?_eq_some hb)
    have hvin' : mn'.vin.prevout = vin.prevout := by simpa using List.find?_some hb
    cases ha : Ranking.find a vin with
    | none => exact absurd (decide_eq_true hvin') (List.find?_eq_none.mp ha mn' hmem)
    | some mn =>
      have hvin : mn.vin.prevout = vin.prevout := by simpa using List.find?_some ha
      exact congrArg some (hunique (List.mem_of_find?_eq_some ha) hmem (hvin.trans hvin'.symm))

theorem Alike.queried {a' b' : Node} (h : Alike a b) (ha : Queried nBlockHeight a a')
    (hb : Queried nBlockHeight b b') : Alike a' b' where
  chain := by rw [ha.asked.chain, hb.asked.chain, h.chain]
  list := by
    rw [ha.list, hb.list]
    exact h.list

theorem bestOf_queried (orc : Oracles) {node : Node}
    (hsound : Sound node (toInt32 (nBlockHeight - 100)))
    (nTenthNetwork nCountTenth : ℕ) (nHigh : Uint256) (best : Option CMasternode)
    (l : List (ℤ × CTxIn)) :
    Queried (nBlockHeight - 100) node
      (bestOf orc nBlockHeight nTenthNetwork nCountTenth nHigh best l node).2 := by
  induction l generalizing node nCountTenth nHigh best with
  | nil => exact Queried.refl _ _
  | cons s rest ih =>
    rw [bestOf]
    cases Ranking.find node s.2 with
    | none => exact Queried.refl _ _
    | some pmn =>
      have hqueried := (calculateScore_spec orc hsound pmn).2
      have hrest := fun n c w => ih (hqueried.asked.sound hsound) n c w
      by_cases hend : nTenthNetwork ≤ nCountTenth + 1
      · simp only [if_pos hend]
        exact hqueried
      · simp only [if_neg hend]
        exact hqueried.trans (hrest _ _ _)

theorem Sound.checkAll {node : Node} {n : ℤ} (h : Sound node n) (env : Env) :
    Sound (checkAll env node) n := h

/-- The same vector gives the same masternode. -/
theorem Alike.bestOf (h : Alike a b) (hdistinct : Distinct a.vMasternodes)
    (ha : Sound a (toInt32 (nBlockHeight - 100))) (hb : Sound b (toInt32 (nBlockHeight - 100)))
    (nTenthNetwork nCountTenth : ℕ) (nHigh : Uint256) (best : Option CMasternode)
    (l : List (ℤ × CTxIn)) :
    (bestOf orc nBlockHeight nTenthNetwork nCountTenth nHigh best l a).1 =
      (bestOf orc nBlockHeight nTenthNetwork nCountTenth nHigh best l b).1 := by
  induction l generalizing a b nCountTenth nHigh best with
  | nil => rfl
  | cons s rest ih =>
    rw [Ranking.bestOf, Ranking.bestOf, h.find hdistinct]
    cases Ranking.find b s.2 with
    | none => rfl
    | some pmn =>
      obtain ⟨hscoreA, hqueriedA⟩ := calculateScore_spec orc ha pmn
      obtain ⟨hscoreB, hqueriedB⟩ := calculateScore_spec orc hb pmn
      have hscore : (calculateScore orc a pmn (nBlockHeight - 100)).1 =
          (calculateScore orc b pmn (nBlockHeight - 100)).1 := by rw [hscoreA, hscoreB, h.chain]
      simp only [hscore]
      by_cases hend : nTenthNetwork ≤ nCountTenth + 1
      · simp only [if_pos hend]
      · simp only [if_neg hend]
        exact ih (h.queried hqueriedA hqueriedB) (hqueriedA.list ▸ hdistinct)
          (hqueriedA.asked.sound ha) (hqueriedB.asked.sound hb) _ _ _

theorem Distinct.map {l : List CMasternode} (h : Distinct l) {f : CMasternode → CMasternode}
    (hf : ∀ mn, (f mn).vin = mn.vin) : Distinct (l.map f) := by
  have hkeep : (fun mn : CMasternode => mn.vin.prevout) ∘ f = fun mn => mn.vin.prevout := by
    funext mn
    rw [Function.comp_apply, hf]
  rw [Distinct, List.map_map, hkeep]
  exact h

theorem payBest_eq (node : Node) (vec : List (ℤ × CTxIn)) :
    payBest orc srt env node nBlockHeight vec =
      bestOf orc nBlockHeight ((Ranking.countEnabled env node).1 / 10) 0 0 none (srt.run vec)
        (checkAll env node) := rfl

theorem payBest_asked (orc : Oracles) (srt : Sorting) (env : Env) {node : Node}
    (hsound : Sound node (toInt32 (nBlockHeight - 100))) (vec : List (ℤ × CTxIn)) :
    Asked (toInt32 (nBlockHeight - 100)) node (payBest orc srt env node nBlockHeight vec).2 ∧
      (payBest orc srt env node nBlockHeight vec).2.vMasternodes =
        (checkAll env node).vMasternodes := by
  have hqueried := bestOf_queried orc (hsound.checkAll env)
    ((Ranking.countEnabled env node).1 / 10) 0 0 none (srt.run vec)
  rw [payBest_eq]
  exact ⟨⟨hqueried.asked.chain, hqueried.asked.cache⟩, hqueried.list⟩

theorem Alike.payBest (h : Alike a b) (orc : Oracles) (srt : Sorting) (env : Env)
    (hdistinct : Distinct a.vMasternodes)
    (ha : Sound a (toInt32 (nBlockHeight - 100))) (hb : Sound b (toInt32 (nBlockHeight - 100)))
    {vec vec' : List (ℤ × CTxIn)} (hperm : vec.Perm vec')
    (hapart : ∀ s ∈ vec, ∀ t ∈ vec, s.1 = t.1 → s = t) :
    (payBest orc srt env a nBlockHeight vec).1 = (payBest orc srt env b nBlockHeight vec').1 := by
  have hrun : (srt.run vec).Perm (srt.run vec') :=
    (srt.perm vec).trans (hperm.trans (srt.perm vec').symm)
  have hsorted : srt.run vec = srt.run vec' := by
    refine sorted_unique Prod.fst hrun (srt.sorted vec) (srt.sorted vec') ?_
    intro s hs t ht
    exact hapart s ((srt.perm vec).mem_iff.mp hs) t ((srt.perm vec).mem_iff.mp ht)
  rw [payBest_eq, payBest_eq, hsorted, h.countEnabled]
  exact h.checkAll.bestOf (hdistinct.map check_vin) ha hb _ _ _ _ _

theorem Turned.asked {node node' : Node} (h : Turned env node node') (n : ℤ) :
    Asked n node node' :=
  ⟨h.chain, fun _ _ hfind => Or.inl (h.cache ▸ hfind)⟩

theorem Turned.distinct {node node' : Node} (h : Turned env node node')
    (hdistinct : Distinct node.vMasternodes) : Distinct node'.vMasternodes := by
  obtain ⟨f, hf, hlist⟩ := h.list
  rw [hlist]
  exact hdistinct.map fun mn => (hf mn).vin

theorem getNext_eq (node : Node) (fFilterSigTime : Bool) :
    getNextMasternodeInQueueForPayment orc srt env node nBlockHeight fFilterSigTime =
      let first := Ranking.collect orc env node nBlockHeight fFilterSigTime
      let last := if fFilterSigTime && decide (first.1.length < first.2.1 / 3) then
          Ranking.collect orc env first.2.2 nBlockHeight false
        else first
      let paid := Ranking.payBest orc srt env last.2.2 nBlockHeight last.1
      ((paid.1, last.1.length), paid.2) := by
  rw [getNextMasternodeInQueueForPayment]
  generalize Ranking.collect orc env node nBlockHeight fFilterSigTime = first
  obtain ⟨vec, nMnCount, after⟩ := first
  by_cases hagain : (fFilterSigTime && decide (vec.length < nMnCount / 3)) = true
  · simp only [if_pos hagain]
  · simp only [if_neg hagain]

theorem Alike.getNext (h : Alike a b) (hdistinct : Distinct a.vMasternodes)
    (ha : Sound a (toInt32 (nBlockHeight - 100))) (hb : Sound b (toInt32 (nBlockHeight - 100)))
    (hapart : WaitsApart orc env a) (fFilterSigTime : Bool) :
    (getNextMasternodeInQueueForPayment orc srt env a nBlockHeight fFilterSigTime).1 =
      (getNextMasternodeInQueueForPayment orc srt env b nBlockHeight fFilterSigTime).1 := by
  obtain ⟨hvec, hcount, hnode⟩ := h.collect orc env nBlockHeight fFilterSigTime
  have hturnedA := collect_turned orc env a nBlockHeight fFilterSigTime
  have hturnedB := collect_turned orc env b nBlockHeight fFilterSigTime
  have hsoundA := (hturnedA.asked _).sound ha
  have hsoundB := (hturnedB.asked _).sound hb
  have hapart₁ := hturnedA.waitsApart hapart
  have hvecApart := hapart.collect nBlockHeight fFilterSigTime
  have hdistinct₁ := hturnedA.distinct hdistinct
  rw [getNext_eq, getNext_eq]
  simp only [← hcount, ← hvec.length_eq]
  generalize Ranking.collect orc env a nBlockHeight fFilterSigTime = first at *
  generalize Ranking.collect orc env b nBlockHeight fFilterSigTime = first' at *
  by_cases hagain : (fFilterSigTime && decide (first.1.length < first.2.1 / 3)) = true
  · obtain ⟨hvec₂, -, hnode₂⟩ := hnode.collect orc env nBlockHeight false
    have hturnedA₂ := collect_turned orc env first.2.2 nBlockHeight false
    have hturnedB₂ := collect_turned orc env first'.2.2 nBlockHeight false
    have hpay := hnode₂.payBest orc srt env
      (hturnedA₂.distinct hdistinct₁) ((hturnedA₂.asked _).sound hsoundA)
      ((hturnedB₂.asked _).sound hsoundB) hvec₂ (hapart₁.collect nBlockHeight false)
    simp only [if_pos hagain]
    exact Prod.ext hpay hvec₂.length_eq
  · have hpay := hnode.payBest orc srt env hdistinct₁ hsoundA hsoundB
      hvec hvecApart
    simp only [if_neg hagain]
    exact Prod.ext hpay hvec.length_eq

/-- No ranked masternode ties with the one that is asked for. -/
def RankApart (orc : Oracles) (env : Env) (node : Node) (vin : CTxIn)
    (nBlockHeight minProtocol : ℤ) (fOnlyActive : Bool) : Prop :=
  ∀ hash, hashFor node.chainActive (toInt32 nBlockHeight) = some hash →
    ∀ mn ∈ node.vMasternodes, isRanked env minProtocol fOnlyActive mn = true →
      compact (distance orc hash mn.vin.prevout) = compact (distance orc hash vin.prevout) →
        mn.vin.prevout = vin.prevout

theorem placeOf_eq (vin : CTxIn) (rank : ℤ) (l : List (ℤ × CTxIn)) :
    placeOf vin rank l =
      if l.any fun s => s.2.prevout = vin.prevout then
        rank + l.findIdx (fun s => s.2.prevout = vin.prevout) + 1
      else -1 := by
  induction l generalizing rank with
  | nil => rfl
  | cons s rest ih =>
    rw [placeOf]
    by_cases hs : s.2.prevout = vin.prevout
    · simp [hs, List.findIdx_cons]
    · rw [if_neg hs, ih]
      simp only [List.any_cons, List.findIdx_cons, decide_eq_false hs, Bool.false_or, cond_false]
      split
      · push_cast
        ring
      · rfl

/-- `vecMasternodeScores` for the hash of a block. -/
def rankedScores (orc : Oracles) (env : Env) (node : Node) (minProtocol : ℤ) (fOnlyActive : Bool)
    (hash : Uint256) : List (ℤ × CTxIn) :=
  (node.vMasternodes.filter (isRanked env minProtocol fOnlyActive)).map fun mn =>
    (compact (distance orc hash mn.vin.prevout), mn.vin)

theorem getMasternodeRank_spec (orc : Oracles) (srt : Sorting) (env : Env) {node : Node}
    (hsound : Sound node (toInt32 nBlockHeight))
    (vin : CTxIn) (minProtocol : ℤ) (fOnlyActive : Bool) :
    (getMasternodeRank orc srt env node vin nBlockHeight minProtocol fOnlyActive).1 =
        (match hashFor node.chainActive (toInt32 nBlockHeight) with
          | some hash =>
            placeOf vin 0 (srt.run (rankedScores orc env node minProtocol fOnlyActive hash))
          | none => -1) ∧
      Asked (toInt32 nBlockHeight) node
        (getMasternodeRank orc srt env node vin nBlockHeight minProtocol fOnlyActive).2 ∧
      ∃ f : CMasternode → CMasternode, (∀ mn, (f mn).vin = mn.vin) ∧
        (getMasternodeRank orc srt env node vin nBlockHeight minProtocol
          fOnlyActive).2.vMasternodes = node.vMasternodes.map f := by
  obtain ⟨hhash, hasked, hlist⟩ := getBlockHash_spec hsound
  unfold getMasternodeRank
  rw [← hhash]
  generalize getBlockHash node (toInt32 nBlockHeight) = answer at hhash hasked hlist ⊢
  obtain ⟨hash?, after⟩ := answer
  cases hash? with
  | none => exact ⟨rfl, hasked, id, fun _ => rfl, by simpa using hlist⟩
  | some hash =>
    have hlist : after.vMasternodes = node.vMasternodes := hlist
    obtain ⟨hscores, hqueried⟩ := rankScores_spec orc env
      (hasked.sound hsound) minProtocol fOnlyActive after.vMasternodes
    have hcompact : ∀ prevout, compactOn orc after.chainActive nBlockHeight prevout =
        compact (distance orc hash prevout) := by
      intro prevout
      rw [compactOn, scoreOn, hasked.chain, ← hhash]
    simp only [hcompact] at hscores
    refine ⟨?_, (hasked.trans hqueried.asked).withList _, rankTurn env minProtocol fOnlyActive,
      fun mn => ?_, ?_⟩
    · change placeOf vin 0 (srt.run _) = placeOf vin 0 (srt.run _)
      rw [hscores, hlist]
      rfl
    · rw [rankTurn]
      split
      · exact check_vin mn
      · rfl
    · exact congrArg (List.map _) hlist

theorem Alike.getMasternodeRank (h : Alike a b) (ha : Sound a (toInt32 nBlockHeight))
    (hb : Sound b (toInt32 nBlockHeight)) {vin : CTxIn} {minProtocol : ℤ} {fOnlyActive : Bool}
    (hapart : RankApart orc env a vin nBlockHeight minProtocol fOnlyActive) :
    (getMasternodeRank orc srt env a vin nBlockHeight minProtocol fOnlyActive).1 =
      (getMasternodeRank orc srt env b vin nBlockHeight minProtocol fOnlyActive).1 := by
  rw [(getMasternodeRank_spec orc srt env ha vin minProtocol fOnlyActive).1,
    (getMasternodeRank_spec orc srt env hb vin minProtocol fOnlyActive).1, ← h.chain]
  cases hhash : hashFor a.chainActive (toInt32 nBlockHeight) with
  | none => rfl
  | some hash =>
    have hperm : (rankedScores orc env a minProtocol fOnlyActive hash).Perm
        (rankedScores orc env b minProtocol fOnlyActive hash) :=
      (h.list.filter _).map _
    have hrun : (srt.run (rankedScores orc env a minProtocol fOnlyActive hash)).Perm
        (srt.run (rankedScores orc env b minProtocol fOnlyActive hash)) :=
      (srt.perm _).trans (hperm.trans (srt.perm _).symm)
    have hkey : ∀ s ∈ srt.run (rankedScores orc env a minProtocol fOnlyActive hash),
        decide (s.2.prevout = vin.prevout) = true ↔
          s.1 = compact (distance orc hash vin.prevout) := by
      intro s hs
      obtain ⟨mn, hmn, rfl⟩ := List.mem_map.mp ((srt.perm _).mem_iff.mp hs)
      obtain ⟨hlist, hranked⟩ := List.mem_filter.mp hmn
      rw [decide_eq_true_eq]
      exact ⟨fun heq => by rw [heq], hapart hash hhash mn hlist hranked⟩
    simp only [placeOf_eq, hrun.any_eq]
    by_cases hany : (srt.run (rankedScores orc env b minProtocol fOnlyActive hash)).any
        (fun s => decide (s.2.prevout = vin.prevout)) = true
    · have hex := List.any_eq_true.mp (hrun.any_eq.trans hany)
      have hplace := findIdx_perm Prod.fst hrun (srt.sorted _) (srt.sorted _) hkey hex
      rw [if_pos hany, if_pos hany, hplace]
    · rw [if_neg hany, if_neg hany]

/-- No two enabled masternodes share the highest score. -/
def WinnerApart (orc : Oracles) (env : Env) (node : Node) (nBlockHeight minProtocol : ℤ) : Prop :=
  TopApart (fun mn : CMasternode => compactOn orc node.chainActive nBlockHeight mn.vin.prevout) 0
    ((Ranking.checkAll env node).vMasternodes.filter (counts minProtocol))

theorem Alike.getCurrentMasterNode (h : Alike a b) (ha : Sound a (toInt32 nBlockHeight))
    (hb : Sound b (toInt32 nBlockHeight)) {minProtocol : ℤ}
    (hapart : WinnerApart orc env a nBlockHeight minProtocol) :
    (getCurrentMasterNode orc env a nBlockHeight minProtocol).1 =
      (getCurrentMasterNode orc env b nBlockHeight minProtocol).1 := by
  have hspecA := (scanForWinner_spec orc (ha.checkAll env) minProtocol 0
    none (Ranking.checkAll env a).vMasternodes).1
  have hspecB := (scanForWinner_spec orc (hb.checkAll env) minProtocol 0
    none (Ranking.checkAll env b).vMasternodes).1
  have hmem : ∀ mn, mn ∈ (Ranking.checkAll env a).vMasternodes.filter (counts minProtocol) ↔
      mn ∈ (Ranking.checkAll env b).vMasternodes.filter (counts minProtocol) := fun mn =>
    (h.checkAll.list.filter _).mem_iff
  rw [Ranking.getCurrentMasterNode, Ranking.getCurrentMasterNode]
  refine hspecA.trans ((champion_congr hmem hapart).trans (Eq.trans ?_ hspecB.symm))
  rw [h.chain]
  rfl

end Alike

end Scrypta.Ranking
