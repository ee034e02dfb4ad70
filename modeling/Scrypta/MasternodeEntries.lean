import Scrypta.MasternodeMan
import Scrypta.Toolkit.Runs

/-! What the entries of the masternode list owe to the owners' signatures. -/

namespace Scrypta.Masternodes

open Runs

/-! What the operations do to the list. -/

section List

variable {s : CMasternodeMan} {prevout : COutPoint} {f : CMasternode → CMasternode}

theorem find_some {mn : CMasternode} (h : s.find prevout = some mn) :
    mn ∈ s.vMasternodes ∧ mn.vin.prevout = prevout := by
  unfold CMasternodeMan.find at h
  exact ⟨List.mem_of_find?_eq_some h, by simpa using List.find?_some h⟩

theorem find?_changeFirst (hf : ∀ mn, (f mn).vin = mn.vin) (l : List CMasternode)
    (o : COutPoint) :
    (CMasternodeMan.changeFirst prevout f l).find? (fun mn => mn.vin.prevout = o) =
      if o = prevout then (l.find? fun mn => mn.vin.prevout = o).map f
      else l.find? fun mn => mn.vin.prevout = o := by
  induction l with
  | nil => simp [CMasternodeMan.changeFirst]
  | cons mn rest ih =>
    by_cases hmn : mn.vin.prevout = prevout
    · rw [CMasternodeMan.changeFirst, if_pos hmn]
      by_cases ho : o = prevout
      · simp [hf, hmn, ho]
      · have hne : ¬prevout = o := fun h => ho h.symm
        simp [hf, hmn, ho, hne]
    · rw [CMasternodeMan.changeFirst, if_neg hmn]
      by_cases hmo : mn.vin.prevout = o
      · have ho : ¬o = prevout := fun h => hmn (hmo.trans h)
        simp [hmo, ho]
      · simp [hmo, ih]

theorem find_change (hf : ∀ mn, (f mn).vin = mn.vin) (o : COutPoint) :
    (s.change prevout f).find o = if o = prevout then (s.find o).map f else s.find o :=
  find?_changeFirst hf s.vMasternodes o

theorem mem_changeFirst {l : List CMasternode} {mn : CMasternode}
    (h : mn ∈ CMasternodeMan.changeFirst prevout f l) :
    mn ∈ l ∨ ∃ mn₀, l.find? (fun mn => mn.vin.prevout = prevout) = some mn₀ ∧ mn = f mn₀ := by
  induction l with
  | nil => exact Or.inl h
  | cons mn₁ rest ih =>
    by_cases hmn : mn₁.vin.prevout = prevout
    · rw [CMasternodeMan.changeFirst, if_pos hmn] at h
      rcases List.mem_cons.mp h with rfl | hrest
      · exact Or.inr ⟨mn₁, by simp [hmn], rfl⟩
      · exact Or.inl (List.mem_cons_of_mem _ hrest)
    · rw [CMasternodeMan.changeFirst, if_neg hmn] at h
      rcases List.mem_cons.mp h with rfl | hrest
      · exact Or.inl List.mem_cons_self
      · rcases ih hrest with hmem | hfound
        · exact Or.inl (List.mem_cons_of_mem _ hmem)
        · obtain ⟨mn₀, hfind, heq⟩ := hfound
          exact Or.inr ⟨mn₀, by simp [hmn, hfind], heq⟩

/-- Every entry has the property. -/
def All (P : CMasternode → Prop) (s : CMasternodeMan) : Prop := ∀ mn ∈ s.vMasternodes, P mn

variable {P : CMasternode → Prop}

theorem All.change (h : All P s) (hf : ∀ mn, s.find prevout = some mn → P (f mn)) :
    All P (s.change prevout f) := by
  intro mn hmn
  rcases mem_changeFirst hmn with hmem | hfound
  · exact h mn hmem
  · obtain ⟨mn₀, hfind, rfl⟩ := hfound
    exact hf mn₀ hfind

theorem All.find {mn : CMasternode} (h : All P s) (hfind : s.find prevout = some mn) : P mn :=
  h mn (find_some hfind).1

theorem All.remove (h : All P s) (vin : CTxIn) : All P (s.remove vin) :=
  fun mn hmn => h mn (List.mem_of_mem_eraseP hmn)

end List

/-! Checks change neither the owner's data nor the ping. -/

section Checks

variable {env : Env}

@[simp] theorem check_vin (b : Bool) (mn : CMasternode) : (mn.check env b).vin = mn.vin := by
  unfold CMasternode.check
  split
  · rfl
  · split <;> rfl

/-- The property does not depend on the state and on the time of the last check. -/
def Steady (P : CMasternode → Prop) : Prop :=
  ∀ mn t state, P mn → P { mn with lastTimeChecked := t, activeState := state }

theorem Steady.check {P : CMasternode → Prop} (hP : Steady P) {mn : CMasternode} (h : P mn)
    (b : Bool) : P (mn.check env b) := by
  unfold CMasternode.check
  split
  · exact h
  · split
    · exact h
    · exact hP mn _ _ h

theorem All.checkAll {P : CMasternode → Prop} (hP : Steady P) {s : CMasternodeMan} (h : All P s) :
    All P (Masternodes.checkAll env s) := by
  intro mn hmn
  obtain ⟨mn₀, hmem, rfl⟩ := List.mem_map.mp hmn
  exact hP.check (h mn₀ hmem) false

end Checks

section Pings

variable {orc : Oracles} {env : Env} {s : CMasternodeMan} {mnp : CMasternodePing}

/-- The ping passes every test before it is stored in the entry `pmn`. -/
structure Accepts (orc : Oracles) (env : Env) (pmn : CMasternode) (mnp : CMasternodePing) :
    Prop where
  notAhead : mnp.sigTime ≤ env.adjustedTime + 60 * 60
  notOld : env.adjustedTime - 60 * 60 < mnp.sigTime
  protocol : env.minMasternodePaymentsProto ≤ pmn.protocolVersion
  notEarly : pmn.isPingedWithin env (minMnpSeconds - 60) mnp.sigTime = false
  signature : orc.verifyMessage pmn.pubKeyMasternode mnp.vchSig (mnp.strMessage orc) = true
  block : ∃ nHeight, env.blockHeight mnp.blockHash = some nHeight ∧ env.height - 24 ≤ nHeight

/-- The state after an accepted ping. -/
def afterPing (orc : Oracles) (env : Env) (s : CMasternodeMan) (pmn : CMasternode)
    (mnp : CMasternodePing) : CMasternodeMan :=
  (s.storePing orc pmn mnp).change mnp.vin.prevout (·.check env true)

theorem checkAndUpdate_cases (orc : Oracles) (env : Env) (s : CMasternodeMan)
    (mnp : CMasternodePing) (fRequireEnabled : Bool) :
    ((mnp.checkAndUpdate orc env s fRequireEnabled).1 = s ∧
      (mnp.checkAndUpdate orc env s fRequireEnabled).2 ≠ .ok ∧
      ∀ pmn, s.find mnp.vin.prevout = some pmn → Accepts orc env pmn mnp →
        fRequireEnabled = true ∧ pmn.isEnabled = false) ∨
    ∃ pmn, s.find mnp.vin.prevout = some pmn ∧ Accepts orc env pmn mnp ∧
      (fRequireEnabled = true → pmn.isEnabled = true) ∧
      (mnp.checkAndUpdate orc env s fRequireEnabled).1 = afterPing orc env s pmn mnp := by
  unfold CMasternodePing.checkAndUpdate
  split
  · next h => exact Or.inl ⟨rfl, nofun, fun _ _ ha => absurd ha.notAhead (not_le.mpr h)⟩
  · next hahead =>
    split
    · next h => exact Or.inl ⟨rfl, nofun, fun _ _ ha => absurd ha.notOld (not_lt.mpr h)⟩
    · next hold =>
      split
      · next hfind => exact Or.inl ⟨rfl, nofun, fun _ h _ => absurd (hfind.symm.trans h) nofun⟩
      · next pmn hfind =>
        have hsame : ∀ pmn', s.find mnp.vin.prevout = some pmn' → pmn = pmn' :=
          fun pmn' h => Option.some.inj (hfind.symm.trans h)
        split
        · next h =>
          refine Or.inl ⟨rfl, nofun, fun pmn' h' ha => ?_⟩
          obtain rfl := hsame pmn' h'
          exact absurd ha.protocol (not_le.mpr h)
        · next hproto =>
          split
          · next h =>
            refine Or.inl ⟨rfl, nofun, fun pmn' h' _ => ?_⟩
            obtain rfl := hsame pmn' h'
            simpa using h
          · next henabled =>
            split
            · next h =>
              refine Or.inl ⟨rfl, nofun, fun pmn' h' ha => ?_⟩
              obtain rfl := hsame pmn' h'
              rw [ha.notEarly] at h
              exact Bool.noConfusion h
            · next hearly =>
              split
              · next h =>
                refine Or.inl ⟨rfl, nofun, fun pmn' h' ha => ?_⟩
                obtain rfl := hsame pmn' h'
                simp [ha.signature] at h
              · next hsig =>
                split
                · next h =>
                  refine Or.inl ⟨rfl, nofun, fun pmn' _ ha => ?_⟩
                  obtain ⟨nHeight, hblock, _⟩ := ha.block
                  exact absurd (h.symm.trans hblock) nofun
                · next nHeight hblock =>
                  split
                  · next h =>
                    refine Or.inl ⟨rfl, nofun, fun pmn' _ ha => ?_⟩
                    obtain ⟨nHeight', hblock', hle⟩ := ha.block
                    obtain rfl := Option.some.inj (hblock.symm.trans hblock')
                    exact absurd hle (not_le.mpr h)
                  · next hrecent =>
                    refine Or.inr ⟨pmn, hfind, ⟨not_lt.mp hahead, not_le.mp hold, not_lt.mp hproto,
                      by simpa using hearly, by simpa using hsig, nHeight, hblock,
                      not_lt.mp hrecent⟩, ?_, ?_⟩
                    · intro hreq
                      simpa [hreq] using henabled
                    · simp only
                      split <;> rfl

end Pings

section Broadcasts

variable {orc : Oracles} {env : Env} {s : CMasternodeMan} {mnb : CMasternodeBroadcast}
  {pmn : CMasternode}

@[simp] theorem renew_vin (mnb : CMasternodeBroadcast) (mn : CMasternode) :
    (mnb.renew mn).vin = mn.vin := rfl

@[simp] theorem withPing_vin (mnp : CMasternodePing) (mn : CMasternode) :
    (mn.withPing mnp).vin = mn.vin := rfl

theorem changeFirst_changeFirst {prevout : COutPoint} {f g : CMasternode → CMasternode}
    (hf : ∀ mn, (f mn).vin = mn.vin) (l : List CMasternode) :
    CMasternodeMan.changeFirst prevout g (CMasternodeMan.changeFirst prevout f l) =
      CMasternodeMan.changeFirst prevout (fun mn => g (f mn)) l := by
  induction l with
  | nil => rfl
  | cons mn rest ih =>
    by_cases hmn : mn.vin.prevout = prevout
    · simp [CMasternodeMan.changeFirst, hmn, hf]
    · simp [CMasternodeMan.changeFirst, hmn, ih]

/-- The entry after a renewal, with the ping, the state and the time of the last check. -/
def renewed (mnb : CMasternodeBroadcast) (ping : CMasternodePing) (state : State) (t : ℤ)
    (mn : CMasternode) : CMasternode :=
  { mnb.renew mn with lastPing := ping, activeState := state, lastTimeChecked := t }

theorem exists_check (env : Env) (b : Bool) (mn : CMasternode) :
    ∃ state t, mn.check env b = { mn with activeState := state, lastTimeChecked := t } := by
  unfold CMasternode.check
  split
  · exact ⟨mn.activeState, mn.lastTimeChecked, rfl⟩
  · split
    · exact ⟨mn.activeState, mn.lastTimeChecked, rfl⟩
    · exact ⟨_, _, rfl⟩

/-- The ping of a broadcast for its own outpoint changes no other entry: the renewed entry has
this ping, or the ping it had where the new one is not accepted. -/
theorem updateEntry_list (orc : Oracles) (env : Env)
    (hfind : s.find mnb.vin.prevout = some pmn)
    (hlt : pmn.sigTime < mnb.sigTime)
    (hown : mnb.lastPing.isEmpty = true ∨ mnb.lastPing.vin.prevout = mnb.vin.prevout) :
    ∃ F : CMasternode → CMasternode,
      (mnb.updateEntry orc env s pmn).1.vMasternodes =
        CMasternodeMan.changeFirst mnb.vin.prevout F s.vMasternodes ∧
      ∃ ping state t, F pmn = renewed mnb ping state t pmn ∧
        (ping = mnb.lastPing ∨ ping = pmn.lastPing ∧ mnb.lastPing.isEmpty = false ∧
          ¬Accepts orc env (mnb.renew pmn) mnb.lastPing) := by
  unfold CMasternodeBroadcast.updateEntry
  rw [if_pos hlt]
  by_cases hempty : mnb.lastPing.isEmpty = true
  · simp only [hempty, if_true]
    exact ⟨_, changeFirst_changeFirst (renew_vin mnb) _, mnb.lastPing, pmn.activeState, 0, rfl,
      Or.inl rfl⟩
  · have hown : mnb.lastPing.vin.prevout = mnb.vin.prevout := hown.resolve_left hempty
    have hrenew : (s.change mnb.vin.prevout mnb.renew).find mnb.lastPing.vin.prevout =
        some (mnb.renew pmn) := by
      rw [hown, find_change (renew_vin mnb), if_pos rfl, hfind]
      rfl
    have hcases := checkAndUpdate_cases orc env (s.change mnb.vin.prevout mnb.renew)
      mnb.lastPing false
    cases hr : mnb.lastPing.checkAndUpdate orc env (s.change mnb.vin.prevout mnb.renew) false with
    | mk s' verdict =>
      rw [hr] at hcases
      rcases hcases with ⟨hsame, hbad, hno⟩ | ⟨pmn', hfind', _, _, hstored⟩
      · obtain rfl : s' = s.change mnb.vin.prevout mnb.renew := hsame
        cases verdict with
        | ok => exact absurd rfl hbad
        | refused nDos =>
          simp only [hempty, hr, Bool.false_eq_true, if_false]
          refine ⟨mnb.renew, rfl, pmn.lastPing, pmn.activeState, 0, rfl,
            Or.inr ⟨rfl, by simp, fun ha => ?_⟩⟩
          exact absurd (hno _ hrenew ha).1 Bool.false_ne_true
      · obtain rfl : s' = afterPing orc env (s.change mnb.vin.prevout mnb.renew) pmn'
          mnb.lastPing := hstored
        -- every change of the list is made at the outpoint of the broadcast
        have hlist : (afterPing orc env (s.change mnb.vin.prevout mnb.renew) pmn'
            mnb.lastPing).vMasternodes = CMasternodeMan.changeFirst mnb.vin.prevout
              (fun mn => ((mnb.renew mn).withPing mnb.lastPing).check env true)
              s.vMasternodes := by
          simp only [afterPing, CMasternodeMan.storePing, CMasternodeMan.change, hown]
          rw [changeFirst_changeFirst (withPing_vin mnb.lastPing),
            changeFirst_changeFirst (renew_vin mnb)]
        obtain ⟨state, t, hcheck⟩ := exists_check env true
          ((mnb.renew pmn).withPing mnb.lastPing)
        cases verdict with
        | ok =>
          simp only [hempty, hr, Bool.false_eq_true, if_false]
          refine ⟨fun mn => (((mnb.renew mn).withPing mnb.lastPing).check env true).withPing
            mnb.lastPing, ?_, mnb.lastPing, state, t, ?_, Or.inl rfl⟩
          · refine (congrArg (CMasternodeMan.changeFirst mnb.vin.prevout _) hlist).trans ?_
            exact changeFirst_changeFirst
              (f := fun mn => ((mnb.renew mn).withPing mnb.lastPing).check env true)
              (fun mn => by simp) _
          · simp only [hcheck]
            rfl
        | refused nDos =>
          simp only [hempty, hr, Bool.false_eq_true, if_false]
          refine ⟨_, hlist, mnb.lastPing, state, t, ?_, Or.inl rfl⟩
          simp only [hcheck]
          rfl

/-- The broadcast passes every test that does not look at the list. -/
structure Passes (orc : Oracles) (env : Env) (mnb : CMasternodeBroadcast) : Prop where
  notAhead : mnb.sigTime ≤ env.adjustedTime + 60 * 60
  protocol : env.minMasternodePaymentsProto ≤ mnb.protocolVersion
  scriptSig : mnb.vin.scriptSig = []
  signature : orc.verifyMessage mnb.pubKeyCollateralAddress mnb.sig (mnb.strMessage orc) = true
  port : mnb.portAllowed env = true

theorem length_payeeScript (pubkey : CPubKey) :
    (CMasternodeBroadcast.payeeScript orc pubkey).length = 25 := by
  simp [CMasternodeBroadcast.payeeScript]

theorem checkAndUpdate_of_passes (h : Passes orc env mnb) :
    mnb.checkAndUpdate orc env s = mnb.updateListed orc env s := by
  unfold CMasternodeBroadcast.checkAndUpdate
  rw [if_neg (not_lt.mpr h.notAhead), if_neg (not_lt.mpr h.protocol),
    if_neg (not_not.mpr (length_payeeScript _)), if_neg (not_not.mpr (length_payeeScript _)),
    if_neg (by simp [h.scriptSig]), if_neg (by simp [h.signature]), if_neg (by simp [h.port])]

theorem checkAndUpdate_of_not_passes (h : ¬Passes orc env mnb) :
    ∃ nDos, mnb.checkAndUpdate orc env s = (s, .refused nDos) := by
  unfold CMasternodeBroadcast.checkAndUpdate
  split
  · exact ⟨1, rfl⟩
  · next hahead =>
    split
    · exact ⟨0, rfl⟩
    · next hproto =>
      iterate 2
        split
        · exact ⟨100, rfl⟩
      split
      · exact ⟨0, rfl⟩
      · next hscript =>
        split
        · exact ⟨100, rfl⟩
        · next hsig =>
          split
          · exact ⟨0, rfl⟩
          · next hport =>
            exact absurd ⟨not_lt.mp hahead, not_lt.mp hproto, by simpa using hscript,
              by simpa using hsig, by simpa using hport⟩ h

/-- The entry of the outpoint takes the broadcast over. -/
structure Renews (env : Env) (pmn : CMasternode) (mnb : CMasternodeBroadcast) : Prop where
  enabled : pmn.isEnabled = true
  sameKey : pmn.pubKeyCollateralAddress = mnb.pubKeyCollateralAddress
  notRecent : pmn.isBroadcastedWithin env minMnbSeconds = false
  newer : pmn.sigTime < mnb.sigTime

theorem updateEntry_snd (orc : Oracles) (env : Env) (s : CMasternodeMan)
    (hlt : pmn.sigTime < mnb.sigTime) :
    (mnb.updateEntry orc env s pmn).2 = true := by
  unfold CMasternodeBroadcast.updateEntry
  rw [if_pos hlt]
  simp only
  split
  · rfl
  · split
    · rfl
    · rfl

theorem updateListed_cases (orc : Oracles) (env : Env) (s : CMasternodeMan)
    (mnb : CMasternodeBroadcast) :
    (∃ pmn, s.find mnb.vin.prevout = some pmn ∧ Renews env pmn mnb ∧
      mnb.updateListed orc env s =
        ((mnb.updateEntry orc env s pmn).1.change mnb.vin.prevout (·.check env false), .ok)) ∨
    ((mnb.updateListed orc env s).1 = s ∧
      ∀ pmn, s.find mnb.vin.prevout = some pmn → ¬Renews env pmn mnb) := by
  unfold CMasternodeBroadcast.updateListed
  split
  · next hfind => exact Or.inr ⟨rfl, fun pmn h => absurd (hfind.symm.trans h) nofun⟩
  · next pmn hfind =>
    have hsame : ∀ pmn', s.find mnb.vin.prevout = some pmn' → pmn = pmn' :=
      fun pmn' h => Option.some.inj (hfind.symm.trans h)
    split
    · next hlt =>
      refine Or.inr ⟨rfl, fun pmn' h hr => ?_⟩
      obtain rfl := hsame pmn' h
      exact absurd hr.newer (not_lt.mpr hlt.le)
    · split
      · next hdis =>
        refine Or.inr ⟨rfl, fun pmn' h hr => ?_⟩
        obtain rfl := hsame pmn' h
        simp [hr.enabled] at hdis
      · next hen =>
        split
        · next hkey =>
          by_cases hlt : pmn.sigTime < mnb.sigTime
          · refine Or.inl ⟨pmn, hfind, ⟨by simpa using hen, hkey.1, by simpa using hkey.2, hlt⟩, ?_⟩
            have htrue := updateEntry_snd orc env s hlt
            cases hu : mnb.updateEntry orc env s pmn with
            | mk s' b =>
              rw [hu] at htrue
              simp only at htrue
              rw [htrue]
          · have hsame' : mnb.updateEntry orc env s pmn = (s, false) := by
              unfold CMasternodeBroadcast.updateEntry
              rw [if_neg hlt]
            rw [hsame']
            refine Or.inr ⟨rfl, fun pmn' h hr => ?_⟩
            obtain rfl := hsame pmn' h
            exact hlt hr.newer
        · next hkey =>
          refine Or.inr ⟨rfl, fun pmn' h hr => ?_⟩
          obtain rfl := hsame pmn' h
          exact hkey ⟨hr.sameKey, by simp [hr.notRecent]⟩

end Broadcasts

end Scrypta.Masternodes
