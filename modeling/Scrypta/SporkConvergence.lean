import Mathlib.Data.Int.Order.Basic
import Mathlib.Data.List.Induction
import Scrypta.SporkMessages
import Scrypta.Toolkit.Register

/-! The sporks of the holder of the key and of the nodes that receive its messages. The holder
takes every update; on a node the entry of one id is a register that only a strictly newer message
replaces. -/

namespace Scrypta.Spork

open Register Runs

/-- One call of `UpdateSpork` and the time at which it is made. -/
structure Update where
  now : ℤ
  nSporkID : ℤ
  nValue : ℤ
  deriving DecidableEq, Repr

section Holder

variable (orc : Oracles) (key : MasterKey)

/-- The message of an update, when it can be signed. -/
def Update.message (u : Update) : Option CSporkMessage :=
  CSporkMessage.sign key ⟨[], u.nSporkID, u.nValue, u.now⟩

/-- The messages that the updates put on the network. -/
def sent (us : List Update) : List CSporkMessage := us.filterMap (Update.message key)

/-- The node of the holder of the key. -/
def holderStep (s : State) (u : Update) : State :=
  match updateSpork orc key u.now s u.nSporkID u.nValue with
  | none => s
  | some r => r.1

def holder (us : List Update) : State := run (holderStep orc key) .init us

/-- The key is the spork key: it signs every text, and the signature verifies. -/
def IsSporkKey : Prop :=
  ∀ text, ∃ sig, key.signMessage text = some sig ∧ key.verifyMessage sig text = true ∧
    orc.verifyMessage sig text = true

end Holder

/-- The last update of a spork. -/
def lastOf (us : List Update) (id : ℤ) : Option Update :=
  (us.filter fun u => u.nSporkID = id).getLast?

/-- The deliveries to one node: only messages of the holder, and each of them at least once while
the node reads sporks. -/
def Receives (ms : List CSporkMessage) (ds : List (Env × Message)) : Prop :=
  (∀ d ∈ ds, ∀ m, d.2 = .spork m → m ∈ ms) ∧
    ∀ m ∈ ms, ∃ env : Env, env.handles = true ∧ (env, Message.spork m) ∈ ds

/-- The messages on one spork that a node reads. -/
def heard (id : ℤ) (ds : List (Env × Message)) : List CSporkMessage :=
  ds.filterMap fun d =>
    match d.2 with
    | .spork m => if d.1.handles = true ∧ m.nSporkID = id then some m else none
    | .getsporks => none

/-- Every node that has received all messages holds what the holder of the key holds. -/
def HoldsAlike (orc : Oracles) (key : MasterKey) (us : List Update) : Prop :=
  ∀ ds, Receives (sent key us) ds → ∀ id,
    (run (step orc) .init ds).mapSporksActive.find id = (holder orc key us).mapSporksActive.find id

/-- Two such nodes evaluate every spork alike at every time. -/
def EvaluatesAlike (orc : Oracles) (key : MasterKey) (us : List Update) : Prop :=
  ∀ ds₁ ds₂, Receives (sent key us) ds₁ → Receives (sent key us) ds₂ → ∀ now id,
    isSporkActive ⟨(run (step orc) .init ds₁).mapSporksActive, now⟩ id =
        isSporkActive ⟨(run (step orc) .init ds₂).mapSporksActive, now⟩ id ∧
      getSporkValue ⟨(run (step orc) .init ds₁).mapSporksActive, now⟩ id =
        getSporkValue ⟨(run (step orc) .init ds₂).mapSporksActive, now⟩ id

/-- All updates of a spork in the second of its last one set the value of the last one. -/
def SettledInLastSecond (us : List Update) : Prop :=
  ∀ u ∈ us, ∀ v, lastOf us u.nSporkID = some v → u.now = v.now → u.nValue = v.nValue

/-- The rule of `ProcessSpork`. -/
def newer (m m' : CSporkMessage) : Bool := decide (m.nTimeSigned < m'.nTimeSigned)

theorem newer_rising : Rising newer CSporkMessage.nTimeSigned := fun _ _ => of_decide_eq_true

section Nodes

variable {orc : Oracles}

theorem mem_heard {id : ℤ} {ds : List (Env × Message)} {m : CSporkMessage} :
    m ∈ heard id ds ↔ ∃ env : Env, env.handles = true ∧ (env, Message.spork m) ∈ ds ∧
      m.nSporkID = id := by
  simp only [heard, List.mem_filterMap]
  constructor
  · intro h
    obtain ⟨⟨env, message⟩, hd, h⟩ := h
    cases message with
    | getsporks => cases h
    | spork m' =>
      simp only [Option.ite_none_right_eq_some] at h
      obtain ⟨⟨hon, hid⟩, hm⟩ := h
      obtain rfl : m' = m := Option.some.inj hm
      exact ⟨env, hon, hd, hid⟩
  · intro h
    obtain ⟨env, hon, hd, hid⟩ := h
    exact ⟨_, hd, if_pos ⟨hon, hid⟩⟩

/-- A signed message goes through the register of its spork. -/
theorem step_find_of_heard {s : State} {env : Env} {m : CSporkMessage}
    (hsig : m.checkSignature orc = true) (hon : env.handles = true) :
    (step orc s (env, .spork m)).mapSporksActive.find m.nSporkID =
      receive newer (s.mapSporksActive.find m.nSporkID) m := by
  rw [step_spork]
  cases hfind : s.mapSporksActive.find m.nSporkID with
  | none =>
    have hseen : seen s m = false := by rw [seen, hfind]
    rw [if_pos (takes_iff.mpr ⟨hon, hseen, hsig⟩), find_put, if_pos rfl]
    rfl
  | some active =>
    by_cases hnew : active.nTimeSigned < m.nTimeSigned
    · have hseen : seen s m = false := by
        rw [seen, hfind]
        exact decide_eq_false (by omega)
      rw [if_pos (takes_iff.mpr ⟨hon, hseen, hsig⟩), find_put, if_pos rfl,
        receive_some_of (decide_eq_true hnew)]
    · have hseen : seen s m = true := by
        rw [seen, hfind]
        exact decide_eq_true (by omega)
      rw [if_neg (fun h => absurd hseen (by simp [(takes_iff.mp h).2.1])), hfind,
        receive_some_of_not (decide_eq_false hnew)]

theorem step_find_of_not_heard {s : State} {env : Env} {m : CSporkMessage} {id : ℤ}
    (h : ¬(env.handles = true ∧ m.nSporkID = id)) :
    (step orc s (env, .spork m)).mapSporksActive.find id = s.mapSporksActive.find id := by
  rw [step_spork]
  split
  · next htakes =>
    rw [find_put, if_neg fun hid => h ⟨(takes_iff.mp htakes).1, hid.symm⟩]
  · rfl

theorem run_find {ds : List (Env × Message)}
    (hsig : ∀ d ∈ ds, ∀ m, d.2 = .spork m → m.checkSignature orc = true) (s : State) (id : ℤ) :
    (run (step orc) s ds).mapSporksActive.find id =
      final newer (s.mapSporksActive.find id) (heard id ds) := by
  induction ds generalizing s with
  | nil => rfl
  | cons d ds ih =>
    obtain ⟨env, message⟩ := d
    rw [run_cons, ih fun e he => hsig e (List.mem_cons_of_mem _ he)]
    cases message with
    | getsporks =>
      rw [step_getsporks]
      rfl
    | spork m =>
      by_cases h : env.handles = true ∧ m.nSporkID = id
      · have hheard : heard id ((env, .spork m) :: ds) = m :: heard id ds :=
          List.filterMap_cons_some (if_pos h)
        rw [hheard, final_cons, ← h.2,
          step_find_of_heard (hsig _ List.mem_cons_self m rfl) h.1]
      · have hheard : heard id ((env, .spork m) :: ds) = heard id ds :=
          List.filterMap_cons_none (if_neg h)
        rw [hheard, step_find_of_not_heard h]

end Nodes

section Updates

variable {orc : Oracles} {key : MasterKey} {us : List Update}

theorem IsSporkKey.message (hkey : IsSporkKey orc key) (u : Update) :
    ∃ m, u.message key = some m ∧ m.content = ⟨u.nSporkID, u.nValue, u.now⟩ ∧
      m.checkSignature orc = true := by
  obtain ⟨sig, hsign, hverify, hcheck⟩ := hkey (Content.strMessage ⟨u.nSporkID, u.nValue, u.now⟩)
  refine ⟨⟨sig, u.nSporkID, u.nValue, u.now⟩, ?_, rfl, hcheck⟩
  simp only [Update.message, CSporkMessage.sign, CSporkMessage.content, hsign, hverify, if_true]

theorem message_content {u : Update} {m : CSporkMessage} (h : u.message key = some m) :
    m.nSporkID = u.nSporkID ∧ m.nValue = u.nValue ∧ m.nTimeSigned = u.now := by
  unfold Update.message CSporkMessage.sign at h
  split at h
  · cases h
  · split at h
    · obtain rfl := Option.some.inj h
      exact ⟨rfl, rfl, rfl⟩
    · cases h

theorem holderStep_of_message {s : State} {u : Update} {m : CSporkMessage}
    (h : u.message key = some m) : holderStep orc key s u = s.put orc m := by
  rw [Update.message] at h
  simp only [holderStep, updateSpork, h]

theorem lastOf_append (us : List Update) (u : Update) (id : ℤ) :
    lastOf (us ++ [u]) id = if u.nSporkID = id then some u else lastOf us id := by
  rw [lastOf, lastOf, List.filter_append]
  by_cases h : u.nSporkID = id
  · rw [if_pos h, List.filter_singleton, decide_eq_true h]
    exact List.getLast?_concat
  · rw [if_neg h, List.filter_singleton, decide_eq_false h]
    simp

theorem mem_of_lastOf {id : ℤ} {v : Update} (h : lastOf us id = some v) :
    v ∈ us ∧ v.nSporkID = id := by
  have hmem := List.mem_of_getLast? h
  exact ⟨(List.mem_filter.mp hmem).1, of_decide_eq_true (List.mem_filter.mp hmem).2⟩

theorem lastOf_isSome {u : Update} (hu : u ∈ us) : ∃ v, lastOf us u.nSporkID = some v := by
  cases h : lastOf us u.nSporkID with
  | some v => exact ⟨v, rfl⟩
  | none =>
    have hmem : u ∈ us.filter fun w => w.nSporkID = u.nSporkID :=
      List.mem_filter.mpr ⟨hu, decide_eq_true rfl⟩
    rw [List.getLast?_eq_none_iff.mp h] at hmem
    cases hmem

/-- With a clock that never goes back the last update of a spork has the latest time. -/
theorem now_le_lastOf (hclock : us.Pairwise fun u v => u.now ≤ v.now) {u v : Update}
    (hu : u ∈ us) (hv : lastOf us u.nSporkID = some v) : u.now ≤ v.now := by
  obtain ⟨front, hfront⟩ := List.getLast?_eq_some_iff.mp hv
  have hmem : u ∈ us.filter fun w => w.nSporkID = u.nSporkID :=
    List.mem_filter.mpr ⟨hu, decide_eq_true rfl⟩
  have hsorted := hclock.filter fun w => decide (w.nSporkID = u.nSporkID)
  rw [hfront] at hmem hsorted
  rcases List.mem_append.mp hmem with h | h
  · exact (List.pairwise_append.mp hsorted).2.2 u h v (List.mem_singleton.mpr rfl)
  · rw [List.mem_singleton.mp h]

/-- The holder of the key holds its last update of every spork. -/
theorem holder_find (hkey : IsSporkKey orc key) (us : List Update) (id : ℤ) :
    (holder orc key us).mapSporksActive.find id = (lastOf us id).bind (Update.message key) := by
  induction us using List.reverseRecOn with
  | nil => exact Dict.find_empty id
  | append_singleton us u ih =>
    obtain ⟨m, hm, _⟩ := hkey.message u
    have hid := (message_content hm).1
    rw [holder, run_append, run_cons, run_nil, holderStep_of_message hm, find_put, lastOf_append]
    by_cases h : id = m.nSporkID
    · rw [if_pos h, if_pos (hid.symm.trans h.symm), Option.bind_some, hm]
    · rw [if_neg h, if_neg fun hu => h (hu.symm.trans hid.symm)]
      exact ih

theorem checkSignature_of_sent (hkey : IsSporkKey orc key) {m : CSporkMessage}
    (hm : m ∈ sent key us) : m.checkSignature orc = true := by
  obtain ⟨u, _, hu⟩ := List.mem_filterMap.mp hm
  obtain ⟨m', hm', _, hcheck⟩ := hkey.message u
  obtain rfl : m' = m := Option.some.inj (hm'.symm.trans hu)
  exact hcheck

theorem Receives.checkSignature (hkey : IsSporkKey orc key) {ds : List (Env × Message)}
    (hds : Receives (sent key us) ds) :
    ∀ d ∈ ds, ∀ m, d.2 = .spork m → m.checkSignature orc = true :=
  fun d hd m hm => checkSignature_of_sent hkey (hds.1 d hd m hm)

/-- What a node reads on a spork are the updates of that spork. -/
theorem exists_update_of_heard {ds : List (Env × Message)} (hds : Receives (sent key us) ds)
    {id : ℤ} {m : CSporkMessage} (hm : m ∈ heard id ds) :
    ∃ u ∈ us, u.message key = some m ∧ u.nSporkID = id := by
  obtain ⟨env, _, hd, hid⟩ := mem_heard.mp hm
  obtain ⟨u, hu, hmessage⟩ := List.mem_filterMap.mp (hds.1 _ hd m rfl)
  exact ⟨u, hu, hmessage, (message_content hmessage).1.symm.trans hid⟩

/-- A node that has received all messages holds the last update, when no other update in the same
second sets another value. -/
theorem node_find (hkey : IsSporkKey orc key) (hclock : us.Pairwise fun u v => u.now ≤ v.now)
    (hsettled : SettledInLastSecond us) {ds : List (Env × Message)}
    (hds : Receives (sent key us) ds) (id : ℤ) :
    (run (step orc) .init ds).mapSporksActive.find id =
      (lastOf us id).bind (Update.message key) := by
  rw [run_find (hds.checkSignature hkey), State.init, Dict.find_empty]
  cases hlast : lastOf us id with
  | none =>
    have hnone : heard id ds = [] := by
      refine List.eq_nil_iff_forall_not_mem.mpr fun m hm => ?_
      obtain ⟨u, hu, _, hid⟩ := exists_update_of_heard hds hm
      obtain ⟨v, hv⟩ := lastOf_isSome hu
      rw [hid, hlast] at hv
      cases hv
    rw [hnone]
    rfl
  | some v =>
    obtain ⟨hv, hvid⟩ := mem_of_lastOf hlast
    obtain ⟨m, hm, _⟩ := hkey.message v
    obtain ⟨hmid, _, hmtime⟩ := message_content hm
    obtain ⟨env, hon, hd⟩ := hds.2 m (List.mem_filterMap.mpr ⟨v, hv, hm⟩)
    have hheard : m ∈ heard id ds := mem_heard.mpr ⟨env, hon, hd, hmid.trans hvid⟩
    rw [Option.bind_some, hm]
    refine final_of_dominates newer_rising (.first rfl hheard) fun m' hm' hne => ?_
    have hmem : m' ∈ heard id ds := by
      cases hm' with
      | start h => cases h
      | first _ h => exact h
      | next _ h _ => exact h
    obtain ⟨u, hu, hum, huid⟩ := exists_update_of_heard hds hmem
    rw [← huid] at hlast hvid
    have hle := now_le_lastOf hclock hu hlast
    have hlt : u.now ≠ v.now := by
      intro hnow
      have huv : u.message key = v.message key := by
        rw [Update.message, Update.message, hvid, hnow, hsettled u hu v hlast hnow]
      exact hne (Option.some.inj (hum.symm.trans (huv.trans hm)))
    have hutime := (message_content hum).2.2
    exact decide_eq_true (by omega)

/-- A node that reads one update in the second of the last one first keeps it. -/
theorem node_find_of_first (hkey : IsSporkKey orc key)
    (hclock : us.Pairwise fun u v => u.now ≤ v.now) {u v : Update} (hu : u ∈ us)
    (hv : lastOf us u.nSporkID = some v) (hnow : u.now = v.now) {m : CSporkMessage}
    (hm : u.message key = some m) :
    ∃ ds, Receives (sent key us) ds ∧
      (run (step orc) .init ds).mapSporksActive.find u.nSporkID = some m := by
  have hsent : m ∈ sent key us := List.mem_filterMap.mpr ⟨u, hu, hm⟩
  let ds : List (Env × Message) := (m :: sent key us).map fun m' => (⟨false, true⟩, .spork m')
  have hds : Receives (sent key us) ds := by
    constructor
    · intro d hd m' hm'
      obtain ⟨m'', hmem, rfl⟩ := List.mem_map.mp hd
      obtain rfl : m'' = m' := by simpa using hm'
      rcases List.mem_cons.mp hmem with rfl | h
      · exact hsent
      · exact h
    · intro m' hm'
      exact ⟨_, rfl, List.mem_map.mpr ⟨m', List.mem_cons_of_mem m hm', rfl⟩⟩
  refine ⟨ds, hds, ?_⟩
  obtain ⟨hmid, _, hmtime⟩ := message_content hm
  have hheard : heard u.nSporkID ds = m :: heard u.nSporkID (ds.drop 1) :=
    List.filterMap_cons_some (if_pos ⟨rfl, hmid⟩)
  rw [run_find (hds.checkSignature hkey), State.init, Dict.find_empty, hheard, final_cons]
  refine final_of_stuck fun m' hm' => decide_eq_false ?_
  have hmem : m' ∈ heard u.nSporkID ds := hheard ▸ List.mem_cons_of_mem m hm'
  obtain ⟨w, hw, hwm, hwid⟩ := exists_update_of_heard hds hmem
  have hle := now_le_lastOf hclock hw (hwid ▸ hv)
  have hwtime := (message_content hwm).2.2
  omega

/-- The nodes converge to the holder of the key exactly when the updates of a spork in the second
of its last one all set the same value. -/
theorem sporks_converge_iff (orc : Oracles) (key : MasterKey) (hkey : IsSporkKey orc key)
    (us : List Update) (hclock : us.Pairwise fun u v => u.now ≤ v.now) :
    (HoldsAlike orc key us ∧ EvaluatesAlike orc key us) ↔ SettledInLastSecond us := by
  constructor
  · intro h u hu v hv hnow
    obtain ⟨m, hm, _⟩ := hkey.message u
    obtain ⟨m', hm', _⟩ := hkey.message v
    obtain ⟨ds, hds, hfind⟩ := node_find_of_first hkey hclock hu hv hnow hm
    have hsame := h.1 ds hds u.nSporkID
    rw [hfind, holder_find hkey, hv, Option.bind_some, hm'] at hsame
    have hvalue := congrArg CSporkMessage.nValue (Option.some.inj hsame)
    rwa [(message_content hm).2.1, (message_content hm').2.1] at hvalue
  · intro hsettled
    refine ⟨fun ds hds id => ?_, fun ds₁ ds₂ h₁ h₂ now id => ?_⟩
    · rw [node_find hkey hclock hsettled hds, holder_find hkey]
    · have hfind := (node_find hkey hclock hsettled h₁ id).trans
        (node_find hkey hclock hsettled h₂ id).symm
      have hvalue : getSporkValue ⟨(run (step orc) .init ds₁).mapSporksActive, now⟩ id =
          getSporkValue ⟨(run (step orc) .init ds₂).mapSporksActive, now⟩ id := by
        simp only [getSporkValue, hfind]
      exact ⟨by simp only [isSporkActive, hvalue], hvalue⟩

end Updates

section Runs

/-- A text signs itself. -/
def sampleKey : MasterKey where
  signMessage text := some (text.toList.map fun c => UInt8.ofNat c.toNat)
  verifyMessage sig text := sig == text.toList.map fun c => UInt8.ofNat c.toNat

def sampleNetwork : Oracles where
  verifyMessage := sampleKey.verifyMessage
  hashQuark bytes := BitVec.ofNat 256 (LittleEndian.decode bytes)
  padding := [0, 0, 0, 0]

theorem sampleKey_isSporkKey : IsSporkKey sampleNetwork sampleKey := fun text =>
  ⟨_, rfl, by simp [sampleKey], by simp [sampleNetwork, sampleKey]⟩

/-- A spork is switched on and off again within a second. -/
def switchedBack : List Update :=
  [⟨1500000000, spork8MasternodePaymentEnforcement, 0⟩,
    ⟨1500000000, spork8MasternodePaymentEnforcement, off⟩]

def deliveries (us : List Update) : List (Env × Message) :=
  (sent sampleKey us).map fun m => (⟨false, true⟩, .spork m)

/-- On a node that received both messages in the order in which they were sent it stays on. -/
theorem sporks_stay_apart :
    isSporkActive ⟨(holder sampleNetwork sampleKey switchedBack).mapSporksActive, 1500000001⟩
        spork8MasternodePaymentEnforcement = false ∧
      isSporkActive ⟨(run (step sampleNetwork) .init (deliveries switchedBack)).mapSporksActive,
        1500000001⟩ spork8MasternodePaymentEnforcement = true ∧
      Receives (sent sampleKey switchedBack) (deliveries switchedBack) := by
  refine ⟨by decide, by decide, fun d hd m hm => ?_, fun m hm => ?_⟩
  · obtain ⟨m', hmem, rfl⟩ := List.mem_map.mp hd
    obtain rfl : m' = m := by simpa using hm
    exact hmem
  · exact ⟨_, rfl, List.mem_map.mpr ⟨m, hm, rfl⟩⟩

theorem sporks_converge_iff_sample :
    ¬(HoldsAlike sampleNetwork sampleKey switchedBack ∧
      EvaluatesAlike sampleNetwork sampleKey switchedBack) := by
  rw [sporks_converge_iff sampleNetwork sampleKey sampleKey_isSporkKey switchedBack (by decide)]
  intro h
  exact absurd (h ⟨1500000000, spork8MasternodePaymentEnforcement, 0⟩ (by decide) _ rfl rfl)
    (by decide)

end Runs

end Scrypta.Spork
