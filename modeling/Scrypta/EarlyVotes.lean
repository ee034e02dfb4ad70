import Scrypta.BudgetMessages

/-! Votes that arrive before what they vote on. The tables of one kind are described by what was
received so far: the targets `ts` and the votes `vs`. -/

namespace Scrypta.Budget

/-- What the proofs need of a kind: where it keeps the votes and under which key, and that its
checks change nothing else than the time. -/
structure Kind.Lawful {τ ν : Type} (k : Kind τ ν) (mapVotes : τ → Dict Uint256 ν)
    (key : ν → Uint256) (nTime : ν → ℤ) : Prop where
  broadcast_votes : ∀ t, mapVotes (k.broadcast t) = .empty
  broadcast_hash : ∀ t, k.getHash (k.broadcast t) = k.getHash t
  setTime_votes : ∀ t n, mapVotes (k.setTime t n) = mapVotes t
  setTime_hash : ∀ t n, k.getHash (k.setTime t n) = k.getHash t
  setTime_valid : ∀ {env t t'} n, k.isValid env t = some (.ok t') →
    ∃ t'', k.isValid env (k.setTime t n) = some (.ok t'')
  isValid_votes : ∀ {env t t'}, k.isValid env t = some (.ok t') → mapVotes t' = mapVotes t
  isValid_hash : ∀ {env t t'}, k.isValid env t = some (.ok t') → k.getHash t' = k.getHash t
  isValid_again : ∀ {env t t'}, k.isValid env t = some (.ok t') →
    ∃ t'', k.isValid env t' = some (.ok t'')
  isValid_collateral : ∀ {env t t'}, k.isValid env t = some (.ok t') →
    (isBudgetCollateralValid env (k.nFeeTXHash t) (k.getHash t)).fValid = true
  update_votes : ∀ {now t t'} {v : ν}, k.addOrUpdateVote now t v = .ok t' →
    mapVotes t' = (mapVotes t).set (key v) v
  update_first : ∀ {now t} {v : ν}, (mapVotes t).find (key v) = none → nTime v ≤ now + 60 * 60 →
    ∃ t', k.addOrUpdateVote now t v = .ok t'

section Ballot

variable {τ ν : Type} {k : Kind τ ν} {env : Env}

/-- What `CheckOrphanVotes` makes of the target and the orphan vote under one hash. -/
def settle (k : Kind τ ν) (env : Env) : Option τ → Option ν → Option τ × Option ν
  | some t, some v =>
    match k.addOrUpdateVote env.now t v with
    | .ok t => (some t, none)
    | .error _ => (some t, some v)
  | t, v => (t, v)

/-- Every orphan vote lies under the hash of its target. -/
def Keyed (k : Kind τ ν) (b : Ballot τ ν) : Prop :=
  ∀ T v, b.orphanVotes.find T = some v → k.target v = T

theorem checkOrphan_seen (b : Ballot τ ν) (e : Uint256 × ν) :
    (b.checkOrphan k env e).seen = b.seen ∧ (b.checkOrphan k env e).seenVotes = b.seenVotes := by
  unfold Ballot.checkOrphan Ballot.applyVote
  cases b.targets.find (k.target e.2) with
  | none => exact ⟨rfl, rfl⟩
  | some t =>
    rw [Option.bind_some]
    cases k.addOrUpdateVote env.now t e.2 with
    | error _ => exact ⟨rfl, rfl⟩
    | ok t' => exact ⟨rfl, rfl⟩

theorem checkOrphan_find (b : Ballot τ ν) {e : Uint256 × ν} (hkey : k.target e.2 = e.1)
    (hin : b.orphanVotes.find e.1 = some e.2) (T : Uint256) :
    ((b.checkOrphan k env e).targets.find T, (b.checkOrphan k env e).orphanVotes.find T) =
      if T = e.1 then settle k env (b.targets.find T) (b.orphanVotes.find T)
      else (b.targets.find T, b.orphanVotes.find T) := by
  unfold Ballot.checkOrphan Ballot.applyVote
  rw [hkey]
  by_cases hT : T = e.1
  · subst hT
    rw [if_pos rfl, hin]
    cases hfind : b.targets.find e.1 with
    | none => simp [settle, hfind, hin]
    | some t =>
      cases hup : k.addOrUpdateVote env.now t e.2 with
      | error _ => simp [settle, hfind, hin, hup, Except.toOption]
      | ok t' => simp [settle, hup, Except.toOption, Dict.find_erase]
  · rw [if_neg hT]
    cases hfind : b.targets.find e.1 with
    | none => rfl
    | some t =>
      cases hup : k.addOrUpdateVote env.now t e.2 with
      | error _ => simp [hup, Except.toOption]
      | ok t' => simp [hup, Except.toOption, Dict.find_set, Dict.find_erase, hT]

theorem foldl_checkOrphan (L : List (Uint256 × ν)) (b : Ballot τ ν)
    (hnodup : (L.map Prod.fst).Nodup) (hkey : ∀ e ∈ L, k.target e.2 = e.1)
    (hin : ∀ e ∈ L, b.orphanVotes.find e.1 = some e.2) :
    (L.foldl (Ballot.checkOrphan k env) b).seen = b.seen ∧
      (L.foldl (Ballot.checkOrphan k env) b).seenVotes = b.seenVotes ∧
      ∀ T, ((L.foldl (Ballot.checkOrphan k env) b).targets.find T,
          (L.foldl (Ballot.checkOrphan k env) b).orphanVotes.find T) =
        if T ∈ L.map Prod.fst then settle k env (b.targets.find T) (b.orphanVotes.find T)
        else (b.targets.find T, b.orphanVotes.find T) := by
  induction L generalizing b with
  | nil => simp
  | cons e L ih =>
    rw [List.map_cons, List.nodup_cons] at hnodup
    have hstep := @checkOrphan_find _ _ k env b e (hkey e List.mem_cons_self)
      (hin e List.mem_cons_self)
    have hrest : ∀ e' ∈ L, (b.checkOrphan k env e).orphanVotes.find e'.1 = some e'.2 := by
      intro e' he'
      have hne : e'.1 ≠ e.1 := fun h => hnodup.1 (h ▸ List.mem_map_of_mem he')
      have h := congrArg Prod.snd (hstep e'.1)
      rw [if_neg hne] at h
      exact h.trans (hin e' (List.mem_cons_of_mem _ he'))
    obtain ⟨hseen, hvotes, hfind⟩ := ih (b.checkOrphan k env e) hnodup.2
      (fun e' he' => hkey e' (List.mem_cons_of_mem _ he')) hrest
    rw [List.foldl_cons]
    refine ⟨hseen.trans (checkOrphan_seen b e).1, hvotes.trans (checkOrphan_seen b e).2, ?_⟩
    intro T
    rw [hfind T, List.map_cons]
    have htarget := congrArg Prod.fst (hstep T)
    have horphan := congrArg Prod.snd (hstep T)
    simp only at htarget horphan
    rw [htarget, horphan]
    by_cases hT : T = e.1
    · have hnot : T ∉ L.map Prod.fst := hT ▸ hnodup.1
      rw [if_pos hT, if_neg hnot, if_pos (List.mem_cons.mpr (Or.inl hT))]
    · rw [if_neg hT]
      simp only [List.mem_cons, hT, false_or]

/-- `CheckOrphanVotes` settles every hash by itself. -/
theorem checkOrphanVotes_find {b : Ballot τ ν} (hkeyed : Keyed k b) :
    (b.checkOrphanVotes k env).seen = b.seen ∧
      (b.checkOrphanVotes k env).seenVotes = b.seenVotes ∧
      ∀ T, ((b.checkOrphanVotes k env).targets.find T,
          (b.checkOrphanVotes k env).orphanVotes.find T) =
        settle k env (b.targets.find T) (b.orphanVotes.find T) := by
  have hmem : ∀ e ∈ b.orphanVotes.toList, b.orphanVotes.find e.1 = some e.2 :=
    fun e he => Dict.mem_toList.mp he
  obtain ⟨hseen, hvotes, hfind⟩ := @foldl_checkOrphan _ _ k env b.orphanVotes.toList b
    (Dict.nodup_keys _) (fun e he => hkeyed e.1 e.2 (hmem e he)) hmem
  refine ⟨hseen, hvotes, fun T => (hfind T).trans ?_⟩
  split
  · rfl
  · next hT =>
    cases horphan : b.orphanVotes.find T with
    | none => cases b.targets.find T <;> rfl
    | some v => exact absurd (List.mem_map_of_mem (Dict.mem_toList.mpr horphan)) hT

/-- The tables after the targets `ts` and the votes `vs`. -/
structure Received (k : Kind τ ν) (mapVotes : τ → Dict Uint256 ν) (key : ν → Uint256)
    (ts : List τ) (vs : List ν) (b : Ballot τ ν) : Prop where
  targets : ∀ T, (b.targets.find T).isSome = true ↔ ∃ t ∈ ts, k.getHash t = T
  seen : ∀ T, b.seen.count T = true ↔ ∃ t ∈ ts, k.getHash t = T
  filter : ∀ h, b.seenVotes.count h = true ↔ ∃ v ∈ vs, k.voteHash v = h
  orphan : ∀ T v, b.orphanVotes.find T = some v →
    v ∈ vs ∧ k.target v = T ∧ b.targets.find T = none
  recorded : ∀ T t, b.targets.find T = some t → ∀ h v, (mapVotes t).find h = some v →
    v ∈ vs ∧ k.target v = T ∧ key v = h

/-- What a vote may do to the tables. -/
inductive VoteStep (k : Kind τ ν) (mapVotes : τ → Dict Uint256 ν) (key : ν → Uint256)
    (vs : List ν) (v : ν) (b : Ballot τ ν) : Ballot τ ν → Prop
  | seen : v ∈ vs → VoteStep k mapVotes key vs v b b
  | recorded {t t' : τ} : v ∉ vs → b.targets.find (k.target v) = some t →
      mapVotes t' = (mapVotes t).set (key v) v →
      VoteStep k mapVotes key vs v b { b with
        seenVotes := b.seenVotes.insert (k.voteHash v) v
        targets := b.targets.set (k.target v) t' }
  | early : v ∉ vs → b.targets.find (k.target v) = none →
      VoteStep k mapVotes key vs v b { b with
        seenVotes := b.seenVotes.insert (k.voteHash v) v
        orphanVotes := b.orphanVotes.set (k.target v) v }

/-- What a target may do to the tables: a new one comes with the orphan vote that waits for it. -/
inductive TargetStep (k : Kind τ ν) (mapVotes : τ → Dict Uint256 ν) (key : ν → Uint256)
    (ts : List τ) (T : Uint256) (b b' : Ballot τ ν) : Prop
  | known : (∃ t ∈ ts, k.getHash t = T) → b' = b → TargetStep k mapVotes key ts T b b'
  | added (t : τ) : (∀ t ∈ ts, k.getHash t ≠ T) →
      (∀ T', b'.targets.find T' = if T' = T then some t else b.targets.find T') →
      (∀ T', b'.orphanVotes.find T' = if T' = T then none else b.orphanVotes.find T') →
      (∀ T', b'.seen.count T' = true ↔ T' = T ∨ b.seen.count T' = true) →
      b'.seenVotes = b.seenVotes →
      (∀ h, (mapVotes t).find h = (b.orphanVotes.find T).filter (key · = h)) →
      TargetStep k mapVotes key ts T b b'

variable {mapVotes : τ → Dict Uint256 ν} {key : ν → Uint256} {nTime : ν → ℤ} {ts : List τ}
  {vs : List ν} {b b' : Ballot τ ν} {asked : Dict Uint256 ℤ}

theorem Received.keyed (h : Received k mapVotes key ts vs b) : Keyed k b :=
  fun T v hv => (h.orphan T v hv).2.1

theorem Received.find_none (h : Received k mapVotes key ts vs b) {T : Uint256}
    (hT : ∀ t ∈ ts, k.getHash t ≠ T) : b.targets.find T = none := by
  by_contra hne
  obtain ⟨t, ht, heq⟩ := (h.targets T).mp (Option.isSome_iff_ne_none.mpr hne)
  exact hT t ht heq

theorem Received.empty : Received k mapVotes key [] [] .empty where
  targets := by simp [Ballot.empty]
  seen := by simp [Ballot.empty, Dict.count]
  filter := by simp [Ballot.empty, Dict.count]
  orphan := by simp [Ballot.empty]
  recorded := by simp [Ballot.empty]

/-- A sound vote takes one of the three steps. -/
theorem processVote_step (hk : k.Lawful mapVotes key nTime) (h : Received k mapVotes key ts vs b)
    {v : ν} (hsynced : env.isSynced = true) (hmn : (env.find (k.vin v).prevout).isSome = true)
    (hsig : k.signatureValid env.find v = true) (htime : nTime v ≤ env.now + 60 * 60)
    (hhash : ∀ u ∈ vs, k.voteHash u = k.voteHash v → u = v)
    (hone : ∀ u ∈ vs, k.target u = k.target v → key u = key v → u = v) :
    VoteStep k mapVotes key vs v b (b.processVote k env asked v).1 := by
  by_cases hv : v ∈ vs
  · rw [Ballot.processVote, if_pos ((h.filter _).mpr ⟨v, hv, rfl⟩)]
    exact .seen hv
  · have hnew : ¬b.seenVotes.count (k.voteHash v) = true := by
      intro hc
      obtain ⟨u, hu, heq⟩ := (h.filter _).mp hc
      exact hv (hhash u hu heq ▸ hu)
    have hfind : (env.find (k.vin v).prevout).isNone = false := by
      rw [← Option.not_isSome, hmn]
      rfl
    rw [Ballot.processVote, if_neg hnew]
    simp only [hfind, hsig, Bool.false_eq_true, if_false, Bool.not_true]
    unfold Ballot.updateTarget Ballot.applyVote
    cases htarget : b.targets.find (k.target v) with
    | none =>
      simp only [Dict.count_eq_false.mpr htarget, Bool.false_eq_true, if_false, hsynced,
        Bool.not_true]
      by_cases hasked : asked.count (k.target v) = true
      · rw [if_pos hasked]
        exact .early hv htarget
      · rw [if_neg hasked]
        exact .early hv htarget
    | some t =>
      have hfresh : (mapVotes t).find (key v) = none := by
        cases hrec : (mapVotes t).find (key v) with
        | none => rfl
        | some u =>
          obtain ⟨hu, hut, huk⟩ := h.recorded _ t htarget _ u hrec
          exact absurd (hone u hu hut huk ▸ hu) hv
      obtain ⟨t', ht'⟩ := hk.update_first hfresh htime
      simp only [Dict.count_eq_true.mpr ⟨t, htarget⟩, if_true, Option.bind_some, ht',
        Except.toOption, Option.map_some]
      exact .recorded hv htarget (hk.update_votes ht')

/-- The tables answer alike. -/
structure Same (b b' : Ballot τ ν) : Prop where
  targets : ∀ T, b'.targets.find T = b.targets.find T
  orphanVotes : ∀ T, b'.orphanVotes.find T = b.orphanVotes.find T
  seen : b'.seen = b.seen
  seenVotes : b'.seenVotes = b.seenVotes

/-- Between two targets there is nothing to settle. -/
theorem recheck_same (h : Received k mapVotes key ts vs b) : Same b (b.checkOrphanVotes k env) := by
  obtain ⟨hseen, hvotes, hfind⟩ := @checkOrphanVotes_find _ _ k env b h.keyed
  have hsettle : ∀ T, settle k env (b.targets.find T) (b.orphanVotes.find T) =
      (b.targets.find T, b.orphanVotes.find T) := by
    intro T
    cases horphan : b.orphanVotes.find T with
    | none => cases b.targets.find T <;> rfl
    | some v => rw [(h.orphan T v horphan).2.2]; rfl
  exact ⟨fun T => congrArg Prod.fst ((hfind T).trans (hsettle T)),
    fun T => congrArg Prod.snd ((hfind T).trans (hsettle T)), hseen, hvotes⟩

/-- A target that enters the tables takes the orphan vote that waits for it. -/
theorem added_step (hk : k.Lawful mapVotes key nTime) (h : Received k mapVotes key ts vs b)
    {T : Uint256} {t : τ} (hnew : ∀ t ∈ ts, k.getHash t ≠ T) (hempty : mapVotes t = .empty)
    (htime : ∀ v ∈ vs, nTime v ≤ env.now + 60 * 60) (b₁ : Ballot τ ν)
    (htargets : b₁.targets = b.targets.set T t) (horphans : b₁.orphanVotes = b.orphanVotes)
    (hseen : ∀ T', b₁.seen.count T' = true ↔ T' = T ∨ b.seen.count T' = true)
    (hvotes : b₁.seenVotes = b.seenVotes) :
    TargetStep k mapVotes key ts T b (b₁.checkOrphanVotes k env) := by
  have hkeyed : Keyed k b₁ := by
    intro T' v hv
    rw [horphans] at hv
    exact h.keyed T' v hv
  obtain ⟨hseen₁, hvotes₁, hfind⟩ := @checkOrphanVotes_find _ _ k env b₁ hkeyed
  have hother : ∀ T', T' ≠ T → (b₁.checkOrphanVotes k env).targets.find T' = b.targets.find T' ∧
      (b₁.checkOrphanVotes k env).orphanVotes.find T' = b.orphanVotes.find T' := by
    intro T' hT'
    have hT := hfind T'
    rw [htargets, horphans, Dict.find_set, if_neg hT'] at hT
    have hsettle : settle k env (b.targets.find T') (b.orphanVotes.find T') =
        (b.targets.find T', b.orphanVotes.find T') := by
      cases horphan : b.orphanVotes.find T' with
      | none => cases b.targets.find T' <;> rfl
      | some v => rw [(h.orphan T' v horphan).2.2]; rfl
    rw [hsettle] at hT
    exact ⟨congrArg Prod.fst hT, congrArg Prod.snd hT⟩
  have hself := hfind T
  rw [htargets, horphans, Dict.find_set_self] at hself
  have hseen' : ∀ T', (b₁.checkOrphanVotes k env).seen.count T' = true ↔
      T' = T ∨ b.seen.count T' = true := by
    rw [hseen₁]
    exact hseen
  -- what becomes of the target and of the vote that waits for it
  have hend : ∃ t', settle k env (some t) (b.orphanVotes.find T) = (some t', none) ∧
      ∀ h, (mapVotes t').find h = (b.orphanVotes.find T).filter (key · = h) := by
    cases horphan : b.orphanVotes.find T with
    | none => exact ⟨t, rfl, by simp [hempty]⟩
    | some v =>
      obtain ⟨t', ht'⟩ := hk.update_first (t := t) (v := v)
        (by simp [hempty]) (htime v (h.orphan T v horphan).1)
      refine ⟨t', by simp [settle, ht'], fun h' => ?_⟩
      rw [hk.update_votes ht', hempty, Dict.find_set, Option.filter_some, Dict.find_empty]
      simp [eq_comm]
  obtain ⟨t', hsettle, hrec⟩ := hend
  rw [hsettle] at hself
  refine .added t' hnew ?_ ?_ hseen' (hvotes₁.trans hvotes) hrec
  · intro T'
    split
    · next hT => rw [hT]; exact congrArg Prod.fst hself
    · next hT => exact (hother T' hT).1
  · intro T'
    split
    · next hT => rw [hT]; exact congrArg Prod.snd hself
    · next hT => exact (hother T' hT).2

/-- A valid target takes one of the two steps. -/
theorem processTarget_step (hk : k.Lawful mapVotes key nTime)
    (h : Received k mapVotes key ts vs b) {t t' : τ}
    (hvalid : k.isValid env (k.broadcast t) = some (.ok t'))
    (htime : ∀ v ∈ vs, nTime v ≤ env.now + 60 * 60) :
    ∃ r, b.processTarget k env (k.broadcast t) = some r ∧
      TargetStep k mapVotes key ts (k.getHash t) b
        (if r.2.2 then r.1.checkOrphanVotes k env else r.1) := by
  unfold Ballot.processTarget
  simp only [hk.broadcast_hash]
  by_cases hseen : b.seen.count (k.getHash t) = true
  · rw [if_pos hseen]
    exact ⟨_, rfl, .known ((h.seen _).mp hseen) rfl⟩
  · rw [if_neg hseen]
    have hnew : ∀ u ∈ ts, k.getHash u ≠ k.getHash t := fun u hu heq =>
      hseen ((h.seen _).mpr ⟨u, hu, heq⟩)
    have hcollateral := hk.isValid_collateral hvalid
    rw [hk.broadcast_hash] at hcollateral
    generalize isBudgetCollateralValid env (k.nFeeTXHash (k.broadcast t)) (k.getHash t) = c
      at hcollateral
    have htimed : ∃ t₁ t₂, (c.nTime.map (k.setTime (k.broadcast t))).getD (k.broadcast t) = t₁ ∧
        k.isValid env t₁ = some (.ok t₂) ∧ mapVotes t₁ = .empty ∧ k.getHash t₁ = k.getHash t := by
      cases c.nTime with
      | none => exact ⟨_, t', rfl, hvalid, hk.broadcast_votes t, hk.broadcast_hash t⟩
      | some n =>
        obtain ⟨t'', ht''⟩ := hk.setTime_valid n hvalid
        exact ⟨_, t'', rfl, ht'', (hk.setTime_votes _ n).trans (hk.broadcast_votes t),
          (hk.setTime_hash _ n).trans (hk.broadcast_hash t)⟩
    obtain ⟨t₁, t₂, heq, hvalid₁, hempty, hhash⟩ := htimed
    obtain ⟨t₃, hvalid₂⟩ := hk.isValid_again hvalid₁
    have hhash₃ : k.getHash t₃ = k.getHash t :=
      (hk.isValid_hash hvalid₂).trans ((hk.isValid_hash hvalid₁).trans hhash)
    have hempty₃ : mapVotes t₃ = .empty :=
      (hk.isValid_votes hvalid₂).trans ((hk.isValid_votes hvalid₁).trans hempty)
    have habsent : b.targets.count (k.getHash t) = false :=
      Dict.count_eq_false.mpr (h.find_none hnew)
    simp only [heq, hcollateral, Bool.not_true, Bool.false_eq_true, if_false, hvalid₁,
      Option.bind_some, Ballot.add, hvalid₂, Option.map_some, hhash₃, habsent, if_true]
    refine ⟨_, rfl, ?_⟩
    refine added_step hk h hnew hempty₃ htime _ rfl rfl (fun T' => ?_) rfl
    rw [Dict.count_eq_true, Dict.count_eq_true, Dict.find_insert]
    by_cases hT : T' = k.getHash t
    · simp [hT]
    · simp [hT]

/-! The votes that are recorded once everything was received. -/

theorem find_of_targetStep {T T' : Uint256} {t : τ}
    (hfind : ∀ T', b'.targets.find T' = if T' = T then some t else b.targets.find T') :
    (b'.targets.find T').isSome = true ↔ T' = T ∨ (b.targets.find T').isSome = true := by
  rw [hfind]
  by_cases hT : T' = T
  · simp [hT]
  · simp [hT]

theorem Received.same (h : Received k mapVotes key ts vs b) (hs : Same b b') :
    Received k mapVotes key ts vs b' where
  targets := fun T => by rw [hs.targets]; exact h.targets T
  seen := fun T => by rw [hs.seen]; exact h.seen T
  filter := fun T => by rw [hs.seenVotes]; exact h.filter T
  orphan := fun T v hv => by
    rw [hs.targets]
    exact h.orphan T v (hs.orphanVotes T ▸ hv)
  recorded := fun T t ht => h.recorded T t (hs.targets T ▸ ht)

theorem Received.target (h : Received k mapVotes key ts vs b) {t : τ}
    (hs : TargetStep k mapVotes key ts (k.getHash t) b b') :
    Received k mapVotes key (ts ++ [t]) vs b' := by
  have hmem : ∀ T, (∃ u ∈ ts ++ [t], k.getHash u = T) ↔
      T = k.getHash t ∨ ∃ u ∈ ts, k.getHash u = T := by
    intro T
    simp only [List.mem_append, List.mem_singleton, or_and_right, exists_or, exists_eq_left]
    rw [or_comm, eq_comm]
  cases hs with
  | known hin heq =>
    subst heq
    have hsame : ∀ T, (∃ u ∈ ts ++ [t], k.getHash u = T) ↔ ∃ u ∈ ts, k.getHash u = T := by
      intro T
      rw [hmem]
      exact ⟨fun h => h.elim (fun hT => hT ▸ hin) id, Or.inr⟩
    exact ⟨fun T => (h.targets T).trans (hsame T).symm, fun T => (h.seen T).trans (hsame T).symm,
      h.filter, h.orphan, h.recorded⟩
  | added t' hnew htargets horphans hseen hvotes hrec =>
    refine ⟨fun T => ?_, fun T => ?_, fun T => by rw [hvotes]; exact h.filter T, ?_, ?_⟩
    · rw [find_of_targetStep htargets, hmem, h.targets]
    · rw [hseen, hmem, h.seen]
    · intro T v hv
      rw [horphans] at hv
      split at hv
      · cases hv
      · next hT =>
        rw [htargets, if_neg hT]
        exact h.orphan T v hv
    · intro T u hu hkey v hv
      rw [htargets] at hu
      split at hu
      · next hT =>
        subst hT
        obtain rfl := Option.some.inj hu
        rw [hrec] at hv
        obtain ⟨horphan, hk⟩ := Option.filter_eq_some_iff.mp hv
        obtain ⟨hvs, htarget, _⟩ := h.orphan _ v horphan
        exact ⟨hvs, htarget, by simpa using hk⟩
      · exact h.recorded T u hu hkey v hv

theorem Received.vote (h : Received k mapVotes key ts vs b) {v : ν}
    (hs : VoteStep k mapVotes key vs v b b') : Received k mapVotes key ts (vs ++ [v]) b' := by
  have hin : ∀ {u}, u ∈ vs → u ∈ vs ++ [v] := fun hu => List.mem_append_left _ hu
  have hlast : v ∈ vs ++ [v] := List.mem_append_right _ (List.mem_singleton.mpr rfl)
  have hfilter : ∀ h', (b.seenVotes.insert (k.voteHash v) v).count h' = true ↔
      ∃ u ∈ vs ++ [v], k.voteHash u = h' := by
    intro h'
    have hmem : (∃ u ∈ vs ++ [v], k.voteHash u = h') ↔
        h' = k.voteHash v ∨ ∃ u ∈ vs, k.voteHash u = h' := by
      simp only [List.mem_append, List.mem_singleton, or_and_right, exists_or, exists_eq_left]
      rw [or_comm, eq_comm]
    rw [hmem, ← h.filter, Dict.count_eq_true, Dict.count_eq_true, Dict.find_insert]
    by_cases hh : h' = k.voteHash v
    · simp [hh]
    · simp [hh]
  cases hs with
  | seen hv =>
    refine ⟨h.targets, h.seen, fun h' => (h.filter h').trans ?_, fun T u hu => ?_,
      fun T t ht k' u hu => ?_⟩
    · simp only [List.mem_append, List.mem_singleton]
      constructor
      · intro hsome
        obtain ⟨u, hu, he⟩ := hsome
        exact ⟨u, Or.inl hu, he⟩
      · intro hsome
        obtain ⟨u, hu, he⟩ := hsome
        exact ⟨u, hu.elim id (fun h => h ▸ hv), he⟩
    · obtain ⟨hvs, hrest⟩ := h.orphan T u hu
      exact ⟨hin hvs, hrest⟩
    · obtain ⟨hvs, hrest⟩ := h.recorded T t ht k' u hu
      exact ⟨hin hvs, hrest⟩
  | @recorded t t' hv ht ht' =>
    refine ⟨fun T => ?_, h.seen, hfilter, fun T u hu => ?_, fun T t₂ ht₂ k' u hu => ?_⟩
    · rw [← h.targets]
      by_cases hT : T = k.target v
      · simp [hT, ht]
      · simp [Dict.find_set, hT]
    · obtain ⟨hvs, htarget, hnone⟩ := h.orphan T u hu
      refine ⟨hin hvs, htarget, ?_⟩
      rw [Dict.find_set, if_neg fun hT => by rw [hT, ht] at hnone; cases hnone]
      exact hnone
    · rw [Dict.find_set] at ht₂
      split at ht₂
      · next hT =>
        subst hT
        obtain rfl := Option.some.inj ht₂
        rw [ht', Dict.find_set] at hu
        split at hu
        · next hkey =>
          obtain rfl := Option.some.inj hu
          exact ⟨hlast, rfl, hkey.symm⟩
        · obtain ⟨hvs, hrest⟩ := h.recorded _ t ht k' u hu
          exact ⟨hin hvs, hrest⟩
      · obtain ⟨hvs, hrest⟩ := h.recorded T t₂ ht₂ k' u hu
        exact ⟨hin hvs, hrest⟩
  | early hv hnone =>
    refine ⟨h.targets, h.seen, hfilter, fun T u hu => ?_, fun T t ht k' u hu => ?_⟩
    · rw [Dict.find_set] at hu
      split at hu
      · next hT =>
        obtain rfl := Option.some.inj hu
        exact ⟨hlast, hT.symm, hT ▸ hnone⟩
      · obtain ⟨hvs, hrest⟩ := h.orphan T u hu
        exact ⟨hin hvs, hrest⟩
    · obtain ⟨hvs, hrest⟩ := h.recorded T t ht k' u hu
      exact ⟨hin hvs, hrest⟩

/-- The vote waits for its target, or is recorded with it. -/
structure Kept (k : Kind τ ν) (mapVotes : τ → Dict Uint256 ν) (key : ν → Uint256) (v : ν)
    (b : Ballot τ ν) : Prop where
  waits : b.targets.find (k.target v) = none → b.orphanVotes.find (k.target v) = some v
  counts : ∀ t, b.targets.find (k.target v) = some t → (mapVotes t).find (key v) = some v

/-- The vote neither waits nor is recorded. -/
structure Lost (k : Kind τ ν) (mapVotes : τ → Dict Uint256 ν) (key : ν → Uint256) (v : ν)
    (b : Ballot τ ν) : Prop where
  waitsNot : b.orphanVotes.find (k.target v) ≠ some v
  countsNot : ∀ t, b.targets.find (k.target v) = some t → (mapVotes t).find (key v) ≠ some v

variable {v : ν}

theorem Kept.same (h : Kept k mapVotes key v b) (hs : Same b b') : Kept k mapVotes key v b' :=
  ⟨fun hn => (hs.orphanVotes _).trans (h.waits (hs.targets _ ▸ hn)),
    fun t ht => h.counts t (hs.targets _ ▸ ht)⟩

theorem Lost.same (h : Lost k mapVotes key v b) (hs : Same b b') : Lost k mapVotes key v b' :=
  ⟨fun hn => h.waitsNot ((hs.orphanVotes _).symm.trans hn),
    fun t ht => h.countsNot t (hs.targets _ ▸ ht)⟩

theorem Kept.target (h : Kept k mapVotes key v b) (hr : Received k mapVotes key ts vs b)
    {T : Uint256} (hs : TargetStep k mapVotes key ts T b b') : Kept k mapVotes key v b' := by
  cases hs with
  | known _ heq => exact heq ▸ h
  | added t hnew htargets horphans _ _ hrec =>
    by_cases hT : k.target v = T
    · subst hT
      have hwaits := h.waits (hr.find_none hnew)
      refine ⟨fun hn => ?_, fun u hu => ?_⟩
      · rw [htargets, if_pos rfl] at hn
        cases hn
      · rw [htargets, if_pos rfl] at hu
        obtain rfl := Option.some.inj hu
        rw [hrec, hwaits]
        simp
    · refine ⟨fun hn => ?_, fun u hu => ?_⟩
      · rw [htargets, if_neg hT] at hn
        rw [horphans, if_neg hT]
        exact h.waits hn
      · rw [htargets, if_neg hT] at hu
        exact h.counts u hu

theorem Lost.target (h : Lost k mapVotes key v b) {T : Uint256}
    (hs : TargetStep k mapVotes key ts T b b') : Lost k mapVotes key v b' := by
  cases hs with
  | known _ heq => exact heq ▸ h
  | added t hnew htargets horphans _ _ hrec =>
    by_cases hT : k.target v = T
    · subst hT
      refine ⟨?_, fun u hu => ?_⟩
      · rw [horphans, if_pos rfl]
        exact Option.some_ne_none v |>.symm
      · rw [htargets, if_pos rfl] at hu
        obtain rfl := Option.some.inj hu
        rw [hrec]
        exact fun hv => h.waitsNot (Option.filter_eq_some_iff.mp hv).1
    · refine ⟨?_, fun u hu => ?_⟩
      · rw [horphans, if_neg hT]
        exact h.waitsNot
      · rw [htargets, if_neg hT] at hu
        exact h.countsNot u hu

/-- A vote that was kept stays, unless another early vote takes its place. -/
theorem Kept.vote (h : Kept k mapVotes key v b) (hv : v ∈ vs) {u : ν}
    (hone : k.target u = k.target v → key u = key v → u = v)
    (hearly : b.targets.find (k.target v) = none → k.target u = k.target v → u = v)
    (hs : VoteStep k mapVotes key vs u b b') : Kept k mapVotes key v b' := by
  cases hs with
  | seen _ => exact h
  | @recorded t t' hu ht ht' =>
    refine ⟨fun hn => ?_, fun w hw => ?_⟩
    · rw [Dict.find_set] at hn
      split at hn
      · cases hn
      · exact h.waits hn
    · rw [Dict.find_set] at hw
      split at hw
      · next hT =>
        obtain rfl := Option.some.inj hw
        rw [ht', Dict.find_set]
        split
        · next hkey => exact absurd (hone hT.symm hkey.symm ▸ hv) hu
        · exact h.counts t (hT ▸ ht)
      · exact h.counts w hw
  | early hu hnone =>
    refine ⟨fun hn => ?_, h.counts⟩
    rw [Dict.find_set]
    split
    · next hT => exact absurd (hearly hn hT.symm ▸ hv) hu
    · exact h.waits hn

theorem Lost.vote (h : Lost k mapVotes key v b) (hv : v ∈ vs) {u : ν}
    (hs : VoteStep k mapVotes key vs u b b') : Lost k mapVotes key v b' := by
  have hne : ∀ w, w ∉ vs → (some w : Option ν) ≠ some v :=
    fun w hw heq => hw (Option.some.inj heq ▸ hv)
  cases hs with
  | seen _ => exact h
  | @recorded t t' hu ht ht' =>
    refine ⟨h.waitsNot, fun w hw => ?_⟩
    rw [Dict.find_set] at hw
    split at hw
    · next hT =>
      obtain rfl := Option.some.inj hw
      rw [ht', Dict.find_set]
      split
      · exact hne u hu
      · exact h.countsNot t (hT ▸ ht)
    · exact h.countsNot w hw
  | early hu hnone =>
    refine ⟨?_, h.countsNot⟩
    rw [Dict.find_set]
    split
    · exact hne u hu
    · exact h.waitsNot

/-- The vote that was just received is kept. -/
theorem VoteStep.kept (hs : VoteStep k mapVotes key vs v b b')
    (h : v ∈ vs → Kept k mapVotes key v b) : Kept k mapVotes key v b' := by
  cases hs with
  | seen hv => exact h hv
  | @recorded t t' hu ht ht' =>
    refine ⟨fun hn => ?_, fun w hw => ?_⟩
    · rw [Dict.find_set_self] at hn
      cases hn
    · rw [Dict.find_set_self] at hw
      obtain rfl := Option.some.inj hw
      rw [ht', Dict.find_set_self]
  | early hu hnone =>
    refine ⟨fun _ => Dict.find_set_self _ _ _, fun w hw => ?_⟩
    rw [hnone] at hw
    cases hw

end Ballot

end Scrypta.Budget
