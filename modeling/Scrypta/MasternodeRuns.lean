import Scrypta.MasternodeEntries

/-! Two runs of the masternode list side by side. A scope names what may differ between them: the
entries of some outpoints, and what is remembered under some hashes. -/

namespace Scrypta.Masternodes

open Runs

structure Scope where
  outpoints : COutPoint → Bool
  broadcasts : Uint256 → Prop
  pings : Uint256 → Prop

section Lists

variable (V : Scope)

/-- The entries that may not differ. -/
def outside (l : List CMasternode) : List CMasternode :=
  l.filter fun mn => !V.outpoints mn.vin.prevout

variable {V} {o : COutPoint} {f : CMasternode → CMasternode}

theorem outside_cons (mn : CMasternode) (l : List CMasternode) : outside V (mn :: l) =
    if V.outpoints mn.vin.prevout = true then outside V l else mn :: outside V l := by
  cases h : V.outpoints mn.vin.prevout <;> simp [outside, h]

theorem outside_changeFirst (hf : ∀ mn, (f mn).vin = mn.vin) (ho : V.outpoints o = false)
    (l : List CMasternode) : outside V (CMasternodeMan.changeFirst o f l) =
      CMasternodeMan.changeFirst o f (outside V l) := by
  induction l with
  | nil => rfl
  | cons mn rest ih =>
    by_cases hmn : mn.vin.prevout = o
    · have hin : V.outpoints mn.vin.prevout = false := by rw [hmn, ho]
      simp [CMasternodeMan.changeFirst, outside_cons, hmn, hf, ho]
    · cases hin : V.outpoints mn.vin.prevout with
      | false => simp [CMasternodeMan.changeFirst, outside_cons, hmn, hin, ih]
      | true => simp [CMasternodeMan.changeFirst, outside_cons, hmn, hin, ih]

theorem outside_changeFirst_self (hf : ∀ mn, (f mn).vin = mn.vin) (ho : V.outpoints o = true)
    (l : List CMasternode) : outside V (CMasternodeMan.changeFirst o f l) = outside V l := by
  induction l with
  | nil => rfl
  | cons mn rest ih =>
    by_cases hmn : mn.vin.prevout = o
    · simp [CMasternodeMan.changeFirst, outside_cons, hmn, hf, ho]
    · simp [CMasternodeMan.changeFirst, outside_cons, hmn, ih]

theorem find?_outside (ho : V.outpoints o = false) (l : List CMasternode) :
    (outside V l).find? (fun mn => mn.vin.prevout = o) =
      l.find? fun mn => mn.vin.prevout = o := by
  induction l with
  | nil => rfl
  | cons mn rest ih =>
    by_cases hmn : mn.vin.prevout = o
    · simp [outside_cons, hmn, ho]
    · cases hin : V.outpoints mn.vin.prevout with
      | false => simp [outside_cons, hmn, hin, ih]
      | true => simp [outside_cons, hmn, hin, ih]

theorem outside_eraseP {vin : CTxIn} (ho : V.outpoints vin.prevout = false)
    (l : List CMasternode) : outside V (l.eraseP fun mn => mn.vin = vin) =
      (outside V l).eraseP fun mn => mn.vin = vin := by
  induction l with
  | nil => rfl
  | cons mn rest ih =>
    by_cases hmn : mn.vin = vin
    · simp [outside_cons, hmn, ho]
    · cases hin : V.outpoints mn.vin.prevout with
      | false => simp [outside_cons, hmn, hin, ih]
      | true => simp [outside_cons, hmn, hin, ih]

theorem outside_eraseP_self {vin : CTxIn} (ho : V.outpoints vin.prevout = true)
    (l : List CMasternode) : outside V (l.eraseP fun mn => mn.vin = vin) = outside V l := by
  induction l with
  | nil => rfl
  | cons mn rest ih =>
    by_cases hmn : mn.vin = vin
    · simp [outside_cons, hmn, ho]
    · simp [outside_cons, hmn, ih]

theorem outside_map (hf : ∀ mn, (f mn).vin = mn.vin) (l : List CMasternode) :
    outside V (l.map f) = (outside V l).map f := by
  induction l with
  | nil => rfl
  | cons mn rest ih =>
    rw [List.map_cons, outside_cons, outside_cons, hf, ih]
    split
    · rfl
    · rfl

theorem outside_filter (p : CMasternode → Bool) (l : List CMasternode) :
    outside V (l.filter p) = (outside V l).filter p := by
  rw [outside, outside, List.filter_filter, List.filter_filter]
  exact List.filter_congr fun mn _ => Bool.and_comm _ _

end Lists

/-- The states differ in the scope at most. -/
structure Agree (V : Scope) (s' s : CMasternodeMan) : Prop where
  list : outside V s'.vMasternodes = outside V s.vMasternodes
  broadcasts : ∀ k, ¬V.broadcasts k →
    s'.mapSeenMasternodeBroadcast.find k = s.mapSeenMasternodeBroadcast.find k
  pings : ∀ k, ¬V.pings k → s'.mapSeenMasternodePing.find k = s.mapSeenMasternodePing.find k
  activeVin : s'.activeVin = s.activeVin

section Agreement

variable {V : Scope} {s s' s'' : CMasternodeMan} {o : COutPoint} {f : CMasternode → CMasternode}
  {orc : Oracles} {env : Env} {pmn : CMasternode} {mnp : CMasternodePing}
  {mnb : CMasternodeBroadcast}

theorem Agree.refl (s : CMasternodeMan) : Agree V s s :=
  ⟨rfl, fun _ _ => rfl, fun _ _ => rfl, rfl⟩

theorem Agree.symm (h : Agree V s' s) : Agree V s s' :=
  ⟨h.list.symm, fun k hk => (h.broadcasts k hk).symm, fun k hk => (h.pings k hk).symm,
    h.activeVin.symm⟩

theorem Agree.trans (h : Agree V s'' s') (h' : Agree V s' s) : Agree V s'' s :=
  ⟨h.list.trans h'.list, fun k hk => (h.broadcasts k hk).trans (h'.broadcasts k hk),
    fun k hk => (h.pings k hk).trans (h'.pings k hk), h.activeVin.trans h'.activeVin⟩

theorem Agree.find (h : Agree V s' s) (ho : V.outpoints o = false) : s'.find o = s.find o := by
  unfold CMasternodeMan.find
  rw [← find?_outside ho, h.list, find?_outside ho]

theorem Agree.change (h : Agree V s' s) (hf : ∀ mn, (f mn).vin = mn.vin)
    (ho : V.outpoints o = false) : Agree V (s'.change o f) (s.change o f) where
  list := by
    simp only [CMasternodeMan.change]
    rw [outside_changeFirst hf ho, outside_changeFirst hf ho, h.list]
  broadcasts := h.broadcasts
  pings := h.pings
  activeVin := h.activeVin

theorem change_self (hf : ∀ mn, (f mn).vin = mn.vin) (ho : V.outpoints o = true) :
    Agree V (s.change o f) s where
  list := outside_changeFirst_self hf ho _
  broadcasts := fun _ _ => rfl
  pings := fun _ _ => rfl
  activeVin := rfl

theorem Agree.storePing (h : Agree V s' s) (ho : V.outpoints mnp.vin.prevout = false) :
    Agree V (s'.storePing orc pmn mnp) (s.storePing orc pmn mnp) where
  list := (h.change (withPing_vin mnp) ho).list
  broadcasts := by
    intro k hk
    simp only [CMasternodeMan.storePing, Dict.find_modify]
    split
    · next heq => rw [← heq, h.broadcasts k hk]
    · exact h.broadcasts k hk
  pings := h.pings
  activeVin := h.activeVin

theorem storePing_self (ho : V.outpoints mnp.vin.prevout = true)
    (hk : V.broadcasts (orc.hashBroadcast pmn.sigTime pmn.pubKeyCollateralAddress)) :
    Agree V (s.storePing orc pmn mnp) s where
  list := outside_changeFirst_self (withPing_vin mnp) ho _
  broadcasts := by
    intro k hk'
    simp only [CMasternodeMan.storePing, Dict.find_modify]
    split
    · next heq => exact absurd (heq ▸ hk) hk'
    · rfl
  pings := fun _ _ => rfl
  activeVin := rfl

/-- A ping for an outpoint outside of the scope is treated alike. -/
theorem Agree.ping (orc : Oracles) (env : Env) (h : Agree V s' s)
    (ho : V.outpoints mnp.vin.prevout = false)
    (fRequireEnabled : Bool) :
    Agree V (mnp.checkAndUpdate orc env s' fRequireEnabled).1
        (mnp.checkAndUpdate orc env s fRequireEnabled).1 ∧
      (mnp.checkAndUpdate orc env s' fRequireEnabled).2 =
        (mnp.checkAndUpdate orc env s fRequireEnabled).2 := by
  have hafter : ∀ pmn, Agree V (afterPing orc env s' pmn mnp) (afterPing orc env s pmn mnp) :=
    fun pmn => (h.storePing ho).change (check_vin true) ho
  unfold CMasternodePing.checkAndUpdate
  rw [h.find ho]
  split
  · exact ⟨h, rfl⟩
  · split
    · exact ⟨h, rfl⟩
    · cases s.find mnp.vin.prevout with
      | none => exact ⟨h, rfl⟩
      | some pmn =>
        simp only
        split
        · exact ⟨h, rfl⟩
        · split
          · exact ⟨h, rfl⟩
          · split
            · exact ⟨h, rfl⟩
            · split
              · exact ⟨h, rfl⟩
              · cases env.blockHeight mnp.blockHash with
                | none => exact ⟨h, rfl⟩
                | some nHeight =>
                  simp only
                  split
                  · exact ⟨h, rfl⟩
                  · have hafter := hafter pmn
                    have hfind := hafter.find ho
                    unfold afterPing at hafter hfind
                    rw [hfind]
                    split
                    · exact ⟨hafter, rfl⟩
                    · exact ⟨hafter, rfl⟩

/-- What the node remembers of the outpoints in the scope lies under hashes in the scope. -/
structure Marked (orc : Oracles) (V : Scope) (s : CMasternodeMan) : Prop where
  entries : All (fun mn => V.outpoints mn.vin.prevout = true →
    V.broadcasts (orc.hashBroadcast mn.sigTime mn.pubKeyCollateralAddress)) s
  stored : ∀ k mnb, s.mapSeenMasternodeBroadcast.find k = some mnb →
    V.outpoints mnb.vin.prevout = true → V.broadcasts k

theorem Marked.change (h : Marked orc V s)
    (hf : ∀ mn, s.find o = some mn → V.outpoints (f mn).vin.prevout = true →
      V.broadcasts (orc.hashBroadcast (f mn).sigTime (f mn).pubKeyCollateralAddress)) :
    Marked orc V (s.change o f) :=
  ⟨h.entries.change hf, h.stored⟩

theorem Marked.storePing (h : Marked orc V s) (pmn : CMasternode) (mnp : CMasternodePing) :
    Marked orc V (s.storePing orc pmn mnp) where
  entries := by
    refine h.entries.change (f := (·.withPing mnp)) fun mn hmn => ?_
    have hmark := h.entries.find hmn
    exact hmark
  stored := by
    intro k mnb hfind hin
    simp only [CMasternodeMan.storePing, Dict.find_modify] at hfind
    split at hfind
    · next heq =>
      obtain ⟨mnb', hfind', rfl⟩ := Option.map_eq_some_iff.mp hfind
      exact heq ▸ h.stored _ mnb' hfind' hin
    · exact h.stored k mnb hfind hin

theorem steady_marked : Steady fun mn => V.outpoints mn.vin.prevout = true →
    V.broadcasts (orc.hashBroadcast mn.sigTime mn.pubKeyCollateralAddress) :=
  fun _ _ _ h => h

theorem Marked.check (h : Marked orc V s) (b : Bool) : Marked orc V (s.change o (·.check env b)) :=
  h.change fun _ hmn => steady_marked.check (h.entries.find hmn) b

theorem Marked.ping (h : Marked orc V s) (env : Env) (mnp : CMasternodePing)
    (fRequireEnabled : Bool) :
    Marked orc V (mnp.checkAndUpdate orc env s fRequireEnabled).1 := by
  rcases checkAndUpdate_cases orc env s mnp fRequireEnabled with
    ⟨hsame, _⟩ | ⟨pmn, _, _, _, heq⟩
  · rw [hsame]
    exact h
  · rw [heq]
    exact (h.storePing pmn mnp).check true

/-- A ping for an outpoint in the scope changes nothing outside of it. -/
theorem Marked.ping_self (h : Marked orc V s) (env : Env)
    (ho : V.outpoints mnp.vin.prevout = true)
    (fRequireEnabled : Bool) : Agree V (mnp.checkAndUpdate orc env s fRequireEnabled).1 s := by
  rcases checkAndUpdate_cases orc env s mnp fRequireEnabled with
    ⟨hsame, _⟩ | ⟨pmn, hfind, _, _, heq⟩
  · rw [hsame]
    exact Agree.refl s
  · rw [heq]
    have hmark : V.broadcasts (orc.hashBroadcast pmn.sigTime pmn.pubKeyCollateralAddress) :=
      h.entries.find hfind (by rw [(find_some hfind).2, ho])
    exact (change_self (check_vin true) ho).trans (storePing_self ho hmark)

theorem Agree.takePing (h : Agree V s' s) (ho : V.outpoints mnb.vin.prevout = false) :
    Agree V (mnb.takePing orc s') (mnb.takePing orc s) where
  list := (h.change (withPing_vin mnb.lastPing) ho).list
  broadcasts := h.broadcasts
  pings := by
    intro k hk
    simp only [CMasternodeBroadcast.takePing, Dict.find_insert]
    split
    · next heq => rw [← heq, h.pings k hk]
    · exact h.pings k hk
  activeVin := h.activeVin

theorem takePing_self (ho : V.outpoints mnb.vin.prevout = true)
    (hk : V.pings (mnb.lastPing.getHash orc)) : Agree V (mnb.takePing orc s) s where
  list := outside_changeFirst_self (withPing_vin mnb.lastPing) ho _
  broadcasts := fun _ _ => rfl
  pings := by
    intro k hk'
    simp only [CMasternodeBroadcast.takePing, Dict.find_insert]
    split
    · next heq => exact absurd (heq ▸ hk) hk'
    · rfl
  activeVin := rfl

theorem Marked.takePing (h : Marked orc V s) : Marked orc V (mnb.takePing orc s) := by
  refine ⟨h.entries.change (f := (·.withPing mnb.lastPing)) fun mn hmn => ?_, h.stored⟩
  have hmark := h.entries.find hmn
  exact hmark

theorem Agree.updateEntry (orc : Oracles) (env : Env) (h : Agree V s' s)
    (ho : V.outpoints mnb.vin.prevout = false)
    (hping : mnb.lastPing.isEmpty = true ∨ V.outpoints mnb.lastPing.vin.prevout = false)
    (pmn : CMasternode) :
    Agree V (mnb.updateEntry orc env s' pmn).1 (mnb.updateEntry orc env s pmn).1 ∧
      (mnb.updateEntry orc env s' pmn).2 = (mnb.updateEntry orc env s pmn).2 := by
  have hrenew := h.change (renew_vin mnb) ho
  unfold CMasternodeBroadcast.updateEntry
  split
  · simp only
    split
    · exact ⟨hrenew.takePing ho, rfl⟩
    · next hempty =>
      obtain ⟨hagree, hverdict⟩ :=
        hrenew.ping orc env (hping.resolve_left hempty) false
      cases hr' : mnb.lastPing.checkAndUpdate orc env (s'.change mnb.vin.prevout mnb.renew) false
        with
      | mk t' v' =>
        cases hr : mnb.lastPing.checkAndUpdate orc env (s.change mnb.vin.prevout mnb.renew) false
          with
        | mk t v =>
          rw [hr', hr] at hagree hverdict
          obtain rfl : v' = v := hverdict
          cases v' with
          | ok => exact ⟨hagree.takePing ho, rfl⟩
          | refused nDos => exact ⟨hagree, rfl⟩
  · exact ⟨h, rfl⟩

theorem Marked.renew (h : Marked orc V s)
    (hmark : V.outpoints mnb.vin.prevout = true → V.broadcasts (mnb.getHash orc)) :
    Marked orc V (s.change mnb.vin.prevout mnb.renew) := by
  refine h.change fun mn hmn hin => hmark ?_
  rw [← (find_some hmn).2]
  exact hin

theorem Marked.updateEntry (h : Marked orc V s)
    (hmark : V.outpoints mnb.vin.prevout = true → V.broadcasts (mnb.getHash orc))
    (pmn : CMasternode) : Marked orc V (mnb.updateEntry orc env s pmn).1 := by
  have hrenew := h.renew hmark
  unfold CMasternodeBroadcast.updateEntry
  split
  · simp only
    split
    · exact hrenew.takePing
    · have hping := hrenew.ping env mnb.lastPing false
      cases hr : mnb.lastPing.checkAndUpdate orc env (s.change mnb.vin.prevout mnb.renew) false with
      | mk t v =>
        rw [hr] at hping
        cases v with
        | ok => exact hping.takePing
        | refused nDos => exact hping
  · exact h

/-- A broadcast for an outpoint in the scope that carries no other ping changes nothing outside. -/
theorem Marked.updateEntry_self (h : Marked orc V s) (ho : V.outpoints mnb.vin.prevout = true)
    (hmark : V.broadcasts (mnb.getHash orc)) (hk : V.pings (mnb.lastPing.getHash orc))
    (hping : mnb.lastPing.isEmpty = true ∨ V.outpoints mnb.lastPing.vin.prevout = true)
    (pmn : CMasternode) : Agree V (mnb.updateEntry orc env s pmn).1 s := by
  have hrenew : Agree V (s.change mnb.vin.prevout mnb.renew) s := change_self (renew_vin mnb) ho
  unfold CMasternodeBroadcast.updateEntry
  split
  · simp only
    split
    · exact (takePing_self ho hk).trans hrenew
    · next hempty =>
      have hself := (h.renew fun _ => hmark).ping_self env (hping.resolve_left hempty) false
      cases hr : mnb.lastPing.checkAndUpdate orc env (s.change mnb.vin.prevout mnb.renew) false with
      | mk t v =>
        rw [hr] at hself
        cases v with
        | ok => exact (takePing_self ho hk).trans (hself.trans hrenew)
        | refused nDos => exact hself.trans hrenew
  · exact Agree.refl s

theorem Agree.updateListed (orc : Oracles) (env : Env) (h : Agree V s' s)
    (ho : V.outpoints mnb.vin.prevout = false)
    (hping : mnb.lastPing.isEmpty = true ∨ V.outpoints mnb.lastPing.vin.prevout = false) :
    Agree V (mnb.updateListed orc env s').1 (mnb.updateListed orc env s).1 ∧
      (mnb.updateListed orc env s').2 = (mnb.updateListed orc env s).2 := by
  unfold CMasternodeBroadcast.updateListed
  rw [h.find ho]
  cases s.find mnb.vin.prevout with
  | none => exact ⟨h, rfl⟩
  | some pmn =>
    simp only
    split
    · exact ⟨h, rfl⟩
    · split
      · exact ⟨h, rfl⟩
      · split
        · obtain ⟨hagree, hflag⟩ := h.updateEntry orc env ho hping pmn
          cases hr' : mnb.updateEntry orc env s' pmn with
          | mk t' b' =>
            cases hr : mnb.updateEntry orc env s pmn with
            | mk t b =>
              rw [hr', hr] at hagree hflag
              obtain rfl : b' = b := hflag
              cases b' with
              | true => exact ⟨hagree.change (check_vin false) ho, rfl⟩
              | false => exact ⟨hagree, rfl⟩
        · exact ⟨h, rfl⟩

theorem Marked.updateListed (h : Marked orc V s) (env : Env)
    (hmark : V.outpoints mnb.vin.prevout = true → V.broadcasts (mnb.getHash orc)) :
    Marked orc V (mnb.updateListed orc env s).1 := by
  rcases updateListed_cases orc env s mnb with
    ⟨pmn, _, _, heq⟩ | ⟨hsame, _⟩
  · rw [heq]
    exact (h.updateEntry hmark pmn).check false
  · rw [hsame]
    exact h

theorem Marked.updateListed_self (h : Marked orc V s) (env : Env)
    (ho : V.outpoints mnb.vin.prevout = true)
    (hmark : V.broadcasts (mnb.getHash orc)) (hk : V.pings (mnb.lastPing.getHash orc))
    (hping : mnb.lastPing.isEmpty = true ∨ V.outpoints mnb.lastPing.vin.prevout = true) :
    Agree V (mnb.updateListed orc env s).1 s := by
  rcases updateListed_cases orc env s mnb with
    ⟨pmn, _, _, heq⟩ | ⟨hsame, _⟩
  · rw [heq]
    exact (change_self (check_vin false) ho).trans (h.updateEntry_self ho hmark hk hping pmn)
  · rw [hsame]
    exact Agree.refl s

end Agreement

section Additions

variable {V : Scope} {s s' : CMasternodeMan} {orc : Oracles} {env : Env}
  {mnb : CMasternodeBroadcast}

theorem outside_append (l l' : List CMasternode) :
    outside V (l ++ l') = outside V l ++ outside V l' := List.filter_append l l'

theorem Agree.add (h : Agree V s' s) {mn : CMasternode}
    (ho : V.outpoints mn.vin.prevout = false) : Agree V (s'.add mn) (s.add mn) := by
  unfold CMasternodeMan.add
  rw [h.find ho]
  split
  · exact h
  · cases s.find mn.vin.prevout with
    | none => exact ⟨by simp only [outside_append, h.list], h.broadcasts, h.pings, h.activeVin⟩
    | some _ => exact h

theorem add_self {mn : CMasternode} (ho : V.outpoints mn.vin.prevout = true) :
    Agree V (s.add mn) s := by
  unfold CMasternodeMan.add
  split
  · exact Agree.refl s
  · split
    · exact ⟨by simp [outside, ho], fun _ _ => rfl, fun _ _ => rfl, rfl⟩
    · exact Agree.refl s

theorem Marked.add (h : Marked orc V s) {mn : CMasternode}
    (hmark : V.outpoints mn.vin.prevout = true →
      V.broadcasts (orc.hashBroadcast mn.sigTime mn.pubKeyCollateralAddress)) :
    Marked orc V (s.add mn) := by
  unfold CMasternodeMan.add
  split
  · exact h
  · split
    · refine ⟨fun mn' hmn' => ?_, h.stored⟩
      rcases List.mem_append.mp hmn' with hold | hlast
      · exact h.entries mn' hold
      · obtain rfl := List.mem_singleton.mp hlast
        exact hmark
    · exact h

theorem Agree.remove (h : Agree V s' s) {vin : CTxIn} (ho : V.outpoints vin.prevout = false) :
    Agree V (s'.remove vin) (s.remove vin) :=
  ⟨by simp only [CMasternodeMan.remove, outside_eraseP ho, h.list], h.broadcasts, h.pings,
    h.activeVin⟩

theorem remove_self {vin : CTxIn} (ho : V.outpoints vin.prevout = true) :
    Agree V (s.remove vin) s :=
  ⟨outside_eraseP_self ho _, fun _ _ => rfl, fun _ _ => rfl, rfl⟩

theorem Marked.remove (h : Marked orc V s) (vin : CTxIn) : Marked orc V (s.remove vin) :=
  ⟨h.entries.remove vin, h.stored⟩

theorem Agree.forget (h : Agree V s' s) : Agree V (mnb.forget orc s') (mnb.forget orc s) := by
  refine ⟨h.list, fun k hk => ?_, h.pings, h.activeVin⟩
  simp only [CMasternodeBroadcast.forget, Dict.find_erase, h.broadcasts k hk]

theorem forget_self (hmark : V.broadcasts (mnb.getHash orc)) : Agree V (mnb.forget orc s) s := by
  refine ⟨rfl, fun k hk => ?_, fun _ _ => rfl, rfl⟩
  simp only [CMasternodeBroadcast.forget, Dict.find_erase]
  rw [if_neg]
  intro heq
  exact hk (heq ▸ hmark)

theorem Marked.forget (h : Marked orc V s) : Marked orc V (mnb.forget orc s) := by
  refine ⟨h.entries, fun k mnb' hfind => h.stored k mnb' ?_⟩
  simp only [CMasternodeBroadcast.forget, Dict.find_erase] at hfind
  split at hfind
  · exact absurd hfind nofun
  · exact hfind

theorem Agree.addNew (h : Agree V s' s) (ho : V.outpoints mnb.vin.prevout = false) :
    Agree V (mnb.addNew orc env s').1 (mnb.addNew orc env s).1 := by
  have hadd : Agree V (s'.add (.ofBroadcast mnb)) (s.add (.ofBroadcast mnb)) := h.add ho
  unfold CMasternodeBroadcast.addNew
  split
  · exact h.forget
  · cases env.acceptableInputs mnb.vin with
    | refused nDos => exact h
    | ok =>
      simp only
      split
      · exact h.forget
      · split
        · exact h
        · split
          · exact ⟨hadd.list, hadd.broadcasts, hadd.pings, rfl⟩
          · exact hadd

/-- The broadcast names the key of the node's own masternode. -/
def OwnKey (env : Env) (mnb : CMasternodeBroadcast) : Prop :=
  env.fMasterNode = true ∧ mnb.pubKeyMasternode = env.activePubKeyMasternode

theorem addNew_self (ho : V.outpoints mnb.vin.prevout = true)
    (hmark : V.broadcasts (mnb.getHash orc)) (hown : ¬OwnKey env mnb) :
    Agree V (mnb.addNew orc env s).1 s := by
  unfold CMasternodeBroadcast.addNew
  split
  · exact forget_self hmark
  · cases env.acceptableInputs mnb.vin with
    | refused nDos => exact Agree.refl s
    | ok =>
      simp only
      split
      · exact forget_self hmark
      · split
        · exact Agree.refl s
        · split
          · next hactive =>
            simp only [Bool.and_eq_true, beq_iff_eq] at hactive
            exact absurd hactive.1 hown
          · have hadd : Agree V (s.add (.ofBroadcast mnb)) s := add_self ho
            exact hadd

theorem Marked.addNew (h : Marked orc V s)
    (hmark : V.outpoints mnb.vin.prevout = true → V.broadcasts (mnb.getHash orc)) :
    Marked orc V (mnb.addNew orc env s).1 := by
  have hadd : Marked orc V (s.add (.ofBroadcast mnb)) := h.add hmark
  unfold CMasternodeBroadcast.addNew
  split
  · exact h.forget
  · cases env.acceptableInputs mnb.vin with
    | refused nDos => exact h
    | ok =>
      simp only
      split
      · exact h.forget
      · split
        · exact h
        · split
          · exact ⟨hadd.entries, hadd.stored⟩
          · exact hadd

theorem Agree.checkInputsAndAdd (h : Agree V s' s) (ho : V.outpoints mnb.vin.prevout = false) :
    Agree V (mnb.checkInputsAndAdd orc env s').1 (mnb.checkInputsAndAdd orc env s).1 := by
  unfold CMasternodeBroadcast.checkInputsAndAdd
  rw [h.find ho, h.activeVin]
  split
  · exact h
  · cases hfind : s.find mnb.vin.prevout with
    | none => exact h.addNew ho
    | some pmn =>
      simp only
      split
      · exact h
      · exact (h.remove (by rw [(find_some hfind).2, ho])).addNew ho

theorem checkInputsAndAdd_self (ho : V.outpoints mnb.vin.prevout = true)
    (hmark : V.broadcasts (mnb.getHash orc)) (hown : ¬OwnKey env mnb) :
    Agree V (mnb.checkInputsAndAdd orc env s).1 s := by
  unfold CMasternodeBroadcast.checkInputsAndAdd
  split
  · exact Agree.refl s
  · split
    · exact addNew_self ho hmark hown
    · next pmn hfind =>
      split
      · exact Agree.refl s
      · exact (addNew_self ho hmark hown).trans (remove_self (by rw [(find_some hfind).2, ho]))

theorem Marked.checkInputsAndAdd (h : Marked orc V s)
    (hmark : V.outpoints mnb.vin.prevout = true → V.broadcasts (mnb.getHash orc)) :
    Marked orc V (mnb.checkInputsAndAdd orc env s).1 := by
  unfold CMasternodeBroadcast.checkInputsAndAdd
  split
  · exact h
  · split
    · exact h.addNew hmark
    · next pmn _ =>
      split
      · exact h
      · exact (h.remove pmn.vin).addNew hmark

end Additions

section Messages

variable {V : Scope} {s s' : CMasternodeMan} {orc : Oracles} {env : Env}
  {mnb : CMasternodeBroadcast} {mnp : CMasternodePing}

def rememberBroadcast (orc : Oracles) (s : CMasternodeMan) (mnb : CMasternodeBroadcast) :
    CMasternodeMan :=
  { s with
    mapSeenMasternodeBroadcast := s.mapSeenMasternodeBroadcast.insert (mnb.getHash orc) mnb }

def rememberPing (orc : Oracles) (s : CMasternodeMan) (mnp : CMasternodePing) : CMasternodeMan :=
  { s with mapSeenMasternodePing := s.mapSeenMasternodePing.insert (mnp.getHash orc) mnp }

theorem Agree.rememberBroadcast (h : Agree V s' s) :
    Agree V (rememberBroadcast orc s' mnb) (rememberBroadcast orc s mnb) := by
  refine ⟨h.list, fun k hk => ?_, h.pings, h.activeVin⟩
  simp only [Masternodes.rememberBroadcast, Dict.find_insert]
  split
  · next heq => rw [← heq, h.broadcasts k hk]
  · exact h.broadcasts k hk

theorem rememberBroadcast_self (hmark : V.broadcasts (mnb.getHash orc)) :
    Agree V (rememberBroadcast orc s mnb) s := by
  refine ⟨rfl, fun k hk => ?_, fun _ _ => rfl, rfl⟩
  simp only [Masternodes.rememberBroadcast, Dict.find_insert]
  split
  · next heq => exact absurd (heq ▸ hmark) hk
  · rfl

theorem Marked.rememberBroadcast (h : Marked orc V s)
    (hmark : V.outpoints mnb.vin.prevout = true → V.broadcasts (mnb.getHash orc)) :
    Marked orc V (rememberBroadcast orc s mnb) := by
  refine ⟨h.entries, fun k mnb' hfind hin => ?_⟩
  simp only [Masternodes.rememberBroadcast, Dict.find_insert] at hfind
  split at hfind
  · next heq =>
    cases hold : s.mapSeenMasternodeBroadcast.find (mnb.getHash orc) with
    | none =>
      rw [hold] at hfind
      obtain rfl := Option.some.inj hfind
      exact heq ▸ hmark hin
    | some mnb₀ =>
      rw [hold] at hfind
      obtain rfl := Option.some.inj hfind
      exact heq ▸ h.stored _ _ hold hin
  · exact h.stored k mnb' hfind hin

theorem Agree.rememberPing (h : Agree V s' s) :
    Agree V (rememberPing orc s' mnp) (rememberPing orc s mnp) := by
  refine ⟨h.list, h.broadcasts, fun k hk => ?_, h.activeVin⟩
  simp only [Masternodes.rememberPing, Dict.find_insert]
  split
  · next heq => rw [← heq, h.pings k hk]
  · exact h.pings k hk

theorem rememberPing_self (hk : V.pings (mnp.getHash orc)) :
    Agree V (rememberPing orc s mnp) s := by
  refine ⟨rfl, fun _ _ => rfl, fun k hk' => ?_, rfl⟩
  simp only [Masternodes.rememberPing, Dict.find_insert]
  split
  · next heq => exact absurd (heq ▸ hk) hk'
  · rfl

/-- What an event may not do to the outpoints on the other side of the scope. -/
def Spares (orc : Oracles) (V : Scope) (s : CMasternodeMan) (e : Env × Input) : Prop :=
  match e.2 with
  | .mnb mnb =>
    if V.outpoints mnb.vin.prevout then
      V.broadcasts (mnb.getHash orc) ∧ V.pings (mnb.lastPing.getHash orc) ∧
        (mnb.lastPing.isEmpty = true ∨ V.outpoints mnb.lastPing.vin.prevout = true) ∧
        ¬OwnKey e.1 mnb
    else Passes orc e.1 mnb → ¬V.broadcasts (mnb.getHash orc) ∧
      (mnb.lastPing.isEmpty = true ∨ V.outpoints mnb.lastPing.vin.prevout = false)
  | .mnp mnp => V.outpoints mnp.vin.prevout = false → V.pings (mnp.getHash orc) →
    ∀ pmn, s.find mnp.vin.prevout = some pmn → pmn.isEnabled = true → ¬Accepts orc e.1 pmn mnp
  | _ => True

theorem processBroadcast_of_seen
    (h : s.mapSeenMasternodeBroadcast.count (mnb.getHash orc) = true) :
    (processBroadcast orc env s mnb).1 = s := by
  unfold processBroadcast
  rw [if_pos h]

theorem processBroadcast_of_not_passes (hpass : ¬Passes orc env mnb) :
    (processBroadcast orc env s mnb).1 =
      if s.mapSeenMasternodeBroadcast.count (mnb.getHash orc) then s
      else rememberBroadcast orc s mnb := by
  unfold processBroadcast
  split
  · rfl
  · obtain ⟨nDos, hrefused⟩ :=
      checkAndUpdate_of_not_passes (s := rememberBroadcast orc s mnb) hpass
    unfold rememberBroadcast at hrefused
    simp only [hrefused]
    rfl

/-- The part of the handler after the tests of the message. -/
def applyBroadcast (orc : Oracles) (env : Env) (s : CMasternodeMan) (mnb : CMasternodeBroadcast) :
    CMasternodeMan :=
  match mnb.updateListed orc env s with
  | (s, .refused _) => s
  | (s, .ok) =>
    if !CMasternodeBroadcast.isVinAssociatedWithPubkey orc env mnb.vin
        mnb.pubKeyCollateralAddress then s
    else (mnb.checkInputsAndAdd orc env s).1

theorem processBroadcast_of_passes (hpass : Passes orc env mnb) :
    (processBroadcast orc env s mnb).1 =
      if s.mapSeenMasternodeBroadcast.count (mnb.getHash orc) then s
      else applyBroadcast orc env (rememberBroadcast orc s mnb) mnb := by
  unfold processBroadcast
  split
  · rfl
  · simp only [checkAndUpdate_of_passes hpass, applyBroadcast, rememberBroadcast]
    generalize mnb.updateListed orc env _ = r
    obtain ⟨t, v⟩ := r
    cases v with
    | refused nDos => rfl
    | ok =>
      simp only
      split
      · rfl
      · rfl

theorem Agree.applyBroadcast (h : Agree V s' s) (ho : V.outpoints mnb.vin.prevout = false)
    (hping : mnb.lastPing.isEmpty = true ∨ V.outpoints mnb.lastPing.vin.prevout = false) :
    Agree V (applyBroadcast orc env s' mnb) (applyBroadcast orc env s mnb) := by
  obtain ⟨hagree, hverdict⟩ := h.updateListed orc env ho hping
  unfold Masternodes.applyBroadcast
  cases hr' : mnb.updateListed orc env s' with
  | mk t' v' =>
    cases hr : mnb.updateListed orc env s with
    | mk t v =>
      rw [hr', hr] at hagree hverdict
      obtain rfl : v' = v := hverdict
      cases v' with
      | refused nDos => exact hagree
      | ok =>
        simp only
        split
        · exact hagree
        · exact hagree.checkInputsAndAdd ho

theorem Marked.applyBroadcast_self (h : Marked orc V s) (ho : V.outpoints mnb.vin.prevout = true)
    (hmark : V.broadcasts (mnb.getHash orc)) (hk : V.pings (mnb.lastPing.getHash orc))
    (hping : mnb.lastPing.isEmpty = true ∨ V.outpoints mnb.lastPing.vin.prevout = true)
    (hown : ¬OwnKey env mnb) : Agree V (applyBroadcast orc env s mnb) s := by
  have hself := h.updateListed_self env ho hmark hk hping
  unfold applyBroadcast
  cases hr : mnb.updateListed orc env s with
  | mk t v =>
    rw [hr] at hself
    cases v with
    | refused nDos => exact hself
    | ok =>
      simp only
      split
      · exact hself
      · exact (checkInputsAndAdd_self ho hmark hown).trans hself

theorem Marked.applyBroadcast (h : Marked orc V s)
    (hmark : V.outpoints mnb.vin.prevout = true → V.broadcasts (mnb.getHash orc)) :
    Marked orc V (applyBroadcast orc env s mnb) := by
  have hupdated := h.updateListed env hmark
  unfold Masternodes.applyBroadcast
  cases hr : mnb.updateListed orc env s with
  | mk t v =>
    rw [hr] at hupdated
    cases v with
    | refused nDos => exact hupdated
    | ok =>
      simp only
      split
      · exact hupdated
      · exact hupdated.checkInputsAndAdd hmark

theorem Marked.processBroadcast_self (h : Marked orc V s)
    (ho : V.outpoints mnb.vin.prevout = true) (hmark : V.broadcasts (mnb.getHash orc))
    (hk : V.pings (mnb.lastPing.getHash orc))
    (hping : mnb.lastPing.isEmpty = true ∨ V.outpoints mnb.lastPing.vin.prevout = true)
    (hown : ¬OwnKey env mnb) : Agree V (processBroadcast orc env s mnb).1 s := by
  by_cases hpass : Passes orc env mnb
  · rw [processBroadcast_of_passes hpass]
    split
    · exact Agree.refl s
    · exact ((h.rememberBroadcast fun _ => hmark).applyBroadcast_self ho hmark hk hping hown).trans
        (rememberBroadcast_self hmark)
  · rw [processBroadcast_of_not_passes hpass]
    split
    · exact Agree.refl s
    · exact rememberBroadcast_self hmark

/-- A broadcast that spares the other side leaves the states in agreement. -/
theorem Agree.processBroadcast (h : Agree V s' s) (hmark' : Marked orc V s')
    (hmark : Marked orc V s) (hspares : Spares orc V s (env, .mnb mnb)) :
    Agree V (processBroadcast orc env s' mnb).1 (processBroadcast orc env s mnb).1 := by
  have hseen : ¬V.broadcasts (mnb.getHash orc) →
      s'.mapSeenMasternodeBroadcast.count (mnb.getHash orc) =
        s.mapSeenMasternodeBroadcast.count (mnb.getHash orc) := by
    intro hk
    unfold Dict.count
    rw [h.broadcasts _ hk]
  -- where the hash is in the scope, a refused broadcast is remembered there
  have hrefused : ¬Passes orc env mnb → V.broadcasts (mnb.getHash orc) → ∀ t,
      Agree V (Masternodes.processBroadcast orc env t mnb).1 t := by
    intro hpass hk t
    rw [processBroadcast_of_not_passes hpass]
    split
    · exact Agree.refl t
    · exact rememberBroadcast_self hk
  cases ho : V.outpoints mnb.vin.prevout with
  | true =>
    obtain ⟨hk, hping, hown, hkey⟩ : V.broadcasts (mnb.getHash orc) ∧
        V.pings (mnb.lastPing.getHash orc) ∧
        (mnb.lastPing.isEmpty = true ∨ V.outpoints mnb.lastPing.vin.prevout = true) ∧
        ¬OwnKey env mnb := by
      simpa only [Spares, ho, if_true] using hspares
    exact (hmark'.processBroadcast_self ho hk hping hown hkey).trans
      (h.trans (hmark.processBroadcast_self ho hk hping hown hkey).symm)
  | false =>
    have hspares : Passes orc env mnb → ¬V.broadcasts (mnb.getHash orc) ∧
        (mnb.lastPing.isEmpty = true ∨ V.outpoints mnb.lastPing.vin.prevout = false) := by
      simpa only [Spares, ho, Bool.false_eq_true, if_false] using hspares
    by_cases hpass : Passes orc env mnb
    · obtain ⟨hk, hping⟩ := hspares hpass
      rw [processBroadcast_of_passes hpass, processBroadcast_of_passes hpass, hseen hk]
      split
      · exact h
      · exact h.rememberBroadcast.applyBroadcast ho hping
    · by_cases hk : V.broadcasts (mnb.getHash orc)
      · exact (hrefused hpass hk s').trans (h.trans (hrefused hpass hk s).symm)
      · rw [processBroadcast_of_not_passes hpass, processBroadcast_of_not_passes hpass, hseen hk]
        split
        · exact h
        · exact h.rememberBroadcast

theorem Marked.processBroadcast (hmark : Marked orc V s)
    (hspares : Spares orc V s (env, .mnb mnb)) :
    Marked orc V (processBroadcast orc env s mnb).1 := by
  have hk : V.outpoints mnb.vin.prevout = true → V.broadcasts (mnb.getHash orc) := by
    intro ho
    simp only [Spares, ho, if_true] at hspares
    exact hspares.1
  by_cases hpass : Passes orc env mnb
  · rw [processBroadcast_of_passes hpass]
    split
    · exact hmark
    · exact (hmark.rememberBroadcast hk).applyBroadcast hk
  · rw [processBroadcast_of_not_passes hpass]
    split
    · exact hmark
    · exact hmark.rememberBroadcast hk

theorem processPing_eq : (processPing orc env s mnp).1 =
    if s.mapSeenMasternodePing.count (mnp.getHash orc) then s
    else (mnp.checkAndUpdate orc env (rememberPing orc s mnp) true).1 := by
  unfold processPing
  split
  · rfl
  · rfl

theorem Marked.processPing (hmark : Marked orc V s) :
    Marked orc V (processPing orc env s mnp).1 := by
  rw [processPing_eq]
  split
  · exact hmark
  · have hmark : Marked orc V (rememberPing orc s mnp) := ⟨hmark.entries, hmark.stored⟩
    exact hmark.ping env mnp true

theorem Agree.processPing (h : Agree V s' s) (hmark' : Marked orc V s') (hmark : Marked orc V s)
    (hspares : Spares orc V s (env, .mnp mnp)) :
    Agree V (processPing orc env s' mnp).1 (processPing orc env s mnp).1 := by
  have hremember : ∀ t, Marked orc V t → Marked orc V (Masternodes.rememberPing orc t mnp) :=
    fun t ht => ⟨ht.entries, ht.stored⟩
  by_cases hk : V.pings (mnp.getHash orc)
  · -- the ping is not stored outside of the scope, and is remembered inside of it
    have hself : ∀ t, Marked orc V t → t.find mnp.vin.prevout = s.find mnp.vin.prevout ∨
        V.outpoints mnp.vin.prevout = true →
          Agree V (Masternodes.processPing orc env t mnp).1 t := by
      intro t ht hside
      rw [processPing_eq]
      split
      · exact Agree.refl t
      · refine Agree.trans ?_ (rememberPing_self hk)
        cases ho : V.outpoints mnp.vin.prevout with
        | true => exact (hremember t ht).ping_self env ho true
        | false =>
          rcases checkAndUpdate_cases orc env (Masternodes.rememberPing orc t mnp) mnp true with
            ⟨hsame, _⟩ | ⟨pmn, hfind, haccept, hen, _⟩
          · rw [hsame]
            exact Agree.refl _
          · have hfind : s.find mnp.vin.prevout = some pmn := by
              rw [← hside.resolve_right (by simp [ho])]
              exact hfind
            exact absurd haccept (hspares ho hk pmn hfind (hen rfl))
    have hfind : s'.find mnp.vin.prevout = s.find mnp.vin.prevout ∨
        V.outpoints mnp.vin.prevout = true := by
      cases ho : V.outpoints mnp.vin.prevout with
      | true => exact Or.inr rfl
      | false => exact Or.inl (h.find ho)
    exact (hself s' hmark' hfind).trans (h.trans (hself s hmark (Or.inl rfl)).symm)
  · have hseen : s'.mapSeenMasternodePing.count (mnp.getHash orc) =
        s.mapSeenMasternodePing.count (mnp.getHash orc) := by
      unfold Dict.count
      rw [h.pings _ hk]
    rw [processPing_eq, processPing_eq, hseen]
    split
    · exact h
    · have hagree : Agree V (Masternodes.rememberPing orc s' mnp)
          (Masternodes.rememberPing orc s mnp) := h.rememberPing
      cases ho : V.outpoints mnp.vin.prevout with
      | false => exact (hagree.ping orc env ho true).1
      | true =>
        exact ((hremember s' hmark').ping_self env ho true).trans
          (hagree.trans ((hremember s hmark).ping_self env ho true).symm)

end Messages

section Checks

variable {V : Scope} {s s' : CMasternodeMan} {orc : Oracles} {env : Env}

theorem Agree.checkAll (h : Agree V s' s) (env : Env) :
    Agree V (checkAll env s') (checkAll env s) :=
  ⟨by simp only [Masternodes.checkAll, outside_map (check_vin false), h.list], h.broadcasts,
    h.pings, h.activeVin⟩

theorem Marked.checkAll (h : Marked orc V s) (env : Env) :
    Marked orc V (checkAll env s) :=
  ⟨h.entries.checkAll steady_marked, h.stored⟩

theorem any_outside {vin : CTxIn} (ho : V.outpoints vin.prevout = false) (l : List CMasternode) :
    (l.any fun mn => vin = mn.vin) = (outside V l).any fun mn => vin = mn.vin := by
  induction l with
  | nil => rfl
  | cons mn rest ih =>
    rw [List.any_cons, outside_cons, ih]
    split
    · next hin =>
      have hne : ¬vin = mn.vin := by
        intro heq
        rw [heq, hin] at ho
        exact Bool.noConfusion ho
      simp [hne]
    · rw [List.any_cons]

theorem Agree.checkAndRemove (h : Agree V s' s) (hmark : Marked orc V s)
    (forceExpiredRemoval : Bool) :
    Agree V (checkAndRemove env s' forceExpiredRemoval)
      (checkAndRemove env s forceExpiredRemoval) := by
  have hall := h.checkAll env
  refine ⟨?_, fun k hk => ?_, fun k hk => ?_, hall.activeVin⟩
  · simp only [Masternodes.checkAndRemove, outside_filter, hall.list]
  · simp only [Masternodes.checkAndRemove, Dict.find_eraseWhere, hall.broadcasts k hk]
    cases hfind : (Masternodes.checkAll env s).mapSeenMasternodeBroadcast.find k with
    | none => rfl
    | some mnb =>
      have ho : V.outpoints mnb.vin.prevout = false := by
        cases ho : V.outpoints mnb.vin.prevout with
        | false => rfl
        | true => exact absurd (hmark.stored k mnb hfind ho) hk
      have hany : (((Masternodes.checkAll env s').vMasternodes.filter
            (removable env forceExpiredRemoval)).any fun mn => mnb.vin = mn.vin) =
          ((Masternodes.checkAll env s).vMasternodes.filter
            (removable env forceExpiredRemoval)).any fun mn => mnb.vin = mn.vin := by
        rw [any_outside ho, outside_filter, hall.list, ← outside_filter, ← any_outside ho]
      simp only [Option.filter, hany]
  · simp only [Masternodes.checkAndRemove, Dict.find_eraseWhere, hall.pings k hk]

theorem Marked.checkAndRemove (h : Marked orc V s) (forceExpiredRemoval : Bool) :
    Marked orc V (checkAndRemove env s forceExpiredRemoval) := by
  have hall := h.checkAll env
  refine ⟨fun mn hmn => hall.entries mn (List.mem_of_mem_filter hmn), fun k mnb hfind => ?_⟩
  simp only [Masternodes.checkAndRemove, Dict.find_eraseWhere] at hfind
  exact h.stored k mnb (Option.filter_eq_some_iff.mp (Option.filter_eq_some_iff.mp hfind).1).1

end Checks

section Runs

variable {V : Scope} {s s' : CMasternodeMan} {orc : Oracles}

theorem Agree.step (h : Agree V s' s) (hmark' : Marked orc V s') (hmark : Marked orc V s)
    {e : Env × Input} (hspares : Spares orc V s e) : Agree V (step orc s' e) (step orc s e) := by
  obtain ⟨env, input⟩ := e
  unfold Masternodes.step
  cases input with
  | mnb mnb =>
    simp only
    split
    · exact h
    · exact h.processBroadcast hmark' hmark hspares
  | mnp mnp =>
    simp only
    split
    · exact h
    · exact h.processPing hmark' hmark hspares
  | check => exact h.checkAll env
  | checkAndRemove forceExpiredRemoval => exact h.checkAndRemove hmark forceExpiredRemoval

theorem Marked.step (hmark : Marked orc V s) {e : Env × Input} {t : CMasternodeMan}
    (hspares : Spares orc V t e) : Marked orc V (step orc s e) := by
  obtain ⟨env, input⟩ := e
  unfold Masternodes.step
  cases input with
  | mnb mnb =>
    simp only
    split
    · exact hmark
    · exact hmark.processBroadcast hspares
  | mnp mnp =>
    simp only
    split
    · exact hmark
    · exact hmark.processPing
  | check => exact hmark.checkAll env
  | checkAndRemove forceExpiredRemoval => exact hmark.checkAndRemove forceExpiredRemoval

/-- Two runs of the same events stay in agreement. -/
theorem Agree.run (h : Agree V s' s) (hmark' : Marked orc V s') (hmark : Marked orc V s)
    {es : List (Env × Input)} (hes : Meets (Masternodes.step orc) (Spares orc V) s es) :
    Agree V (Runs.run (Masternodes.step orc) s' es) (Runs.run (Masternodes.step orc) s es) := by
  induction es generalizing s s' with
  | nil => exact h
  | cons e es ih =>
    exact ih (h.step hmark' hmark hes.1) (hmark'.step hes.1) (hmark.step hes.1) hes.2

end Runs

end Scrypta.Masternodes
