import Scrypta.MasternodeEntries

/-! Which entries of the masternode list carry only what the owners signed. The signed text of a
broadcast leaves out the outpoint, and a new entry takes the ping of its broadcast unchecked. -/

namespace Scrypta.Masternodes

open Runs

/-- What was signed: announcements with the collateral keys, pings with the given keys. -/
structure Signers where
  announced : CMasternodeBroadcast → Prop
  pinged : CPubKey → CMasternodePing → Prop

/-- Only what the holder of a key signed verifies. -/
structure Ideal (orc : Oracles) (signers : Signers) : Prop where
  signed : ∀ key sig text, orc.verifyMessage key sig text = true →
    (∃ mnb, signers.announced mnb ∧ mnb.pubKeyCollateralAddress = key ∧
      mnb.strMessage orc = text) ∨
    ∃ mnp, signers.pinged key mnp ∧ mnp.strMessage orc = text
  valid : ∀ mnb, signers.announced mnb → mnb.pubKeyCollateralAddress.vch ≠ []

section Texts

variable {orc : Oracles}

theorem toList_strMessage (mnb : CMasternodeBroadcast) : (mnb.strMessage orc).toList =
    (mnb.addr.toString orc).toList ++ ((toString mnb.sigTime).toList ++
      ((bytesToString mnb.pubKeyCollateralAddress.vch).toList ++
        ((bytesToString mnb.pubKeyMasternode.vch).toList ++
          (toString mnb.protocolVersion).toList))) := by
  simp only [CMasternodeBroadcast.strMessage, String.toList_append, List.append_assoc]

theorem toList_pingMessage (mnp : CMasternodePing) : (mnp.strMessage orc).toList =
    (txInToString orc mnp.vin).toList ++ (mnp.blockHash.toHex.toList ++
      (toString mnp.sigTime).toList) := by
  simp only [CMasternodePing.strMessage, String.toList_append, List.append_assoc]

/-- No announcement reads like a ping. -/
theorem strMessage_ne_pingMessage (mnb : CMasternodeBroadcast) (mnp : CMasternodePing) :
    mnb.strMessage orc ≠ mnp.strMessage orc := by
  intro h
  have hlist := congrArg String.toList h
  rw [toList_strMessage, toList_pingMessage] at hlist
  have hhead := congrArg List.head? hlist
  rw [txIn_head] at hhead
  exact address_head hhead

/-- Under one collateral key and one port, the text of an announcement covers the address, the
time, the masternode key and the protocol version. -/
theorem strMessage_inj (horc : Texts orc) {mnb mnb' : CMasternodeBroadcast}
    (hkey : mnb.pubKeyCollateralAddress = mnb'.pubKeyCollateralAddress)
    (hvalid : mnb.pubKeyCollateralAddress.vch ≠ []) (hport : mnb.addr.port = mnb'.addr.port)
    (h : mnb.strMessage orc = mnb'.strMessage orc) :
    mnb.addr = mnb'.addr ∧ mnb.sigTime = mnb'.sigTime ∧
      mnb.pubKeyMasternode = mnb'.pubKeyMasternode ∧
      mnb.protocolVersion = mnb'.protocolVersion := by
  have hlist := congrArg String.toList h
  rw [toList_strMessage, toList_strMessage, ← hkey] at hlist
  obtain ⟨haddr, hrest⟩ := address_append_inj horc hport hlist
  obtain ⟨htime, hrest⟩ := number_append_inj hvalid hrest
  obtain ⟨hmn, hproto⟩ := key_append_inj hrest
  exact ⟨haddr, htime, hmn, hproto⟩

/-- The text of a ping covers the outpoint, the block and the time. -/
theorem pingMessage_inj (horc : Texts orc) {mnp mnp' : CMasternodePing}
    (h : mnp.strMessage orc = mnp'.strMessage orc) :
    mnp.vin.prevout = mnp'.vin.prevout ∧ mnp.blockHash = mnp'.blockHash ∧
      mnp.sigTime = mnp'.sigTime := by
  have hlist := congrArg String.toList h
  rw [toList_pingMessage, toList_pingMessage] at hlist
  obtain ⟨hvin, hrest⟩ := txIn_append_inj horc hlist
  obtain ⟨hblock, hrest⟩ := toHex_append_inj hrest
  exact ⟨hvin, hblock, Digits.toString_int_inj hrest⟩

end Texts

section Entries

/-- The holder of the collateral key announced the outpoint, address, masternode key and time of
the entry. -/
def Announced (signers : Signers) (mn : CMasternode) : Prop :=
  ∃ mnb, signers.announced mnb ∧ mnb.pubKeyCollateralAddress = mn.pubKeyCollateralAddress ∧
    mnb.vin.prevout = mn.vin.prevout ∧ mnb.addr = mn.addr ∧
    mnb.pubKeyMasternode = mn.pubKeyMasternode ∧ mnb.sigTime = mn.sigTime

/-- The holder of the masternode key signed the ping for the outpoint, with a time at most one hour
ahead of the clock of some event so far. -/
def Pinged (signers : Signers) (past : List (Env × Input)) (key : CPubKey) (prevout : COutPoint)
    (ping : CMasternodePing) : Prop :=
  ping.isEmpty = true ∨
    (∃ mnp, signers.pinged key mnp ∧ mnp.vin.prevout = prevout ∧ mnp.blockHash = ping.blockHash ∧
      mnp.sigTime = ping.sigTime) ∧
    ∃ e ∈ past, ping.sigTime ≤ e.1.adjustedTime + 60 * 60

def Authentic (signers : Signers) (past : List (Env × Input)) (mn : CMasternode) : Prop :=
  Announced signers mn ∧ Pinged signers past mn.pubKeyMasternode mn.vin.prevout mn.lastPing

variable {orc : Oracles} {signers : Signers} {past : List (Env × Input)} {env : Env}
  {mnb : CMasternodeBroadcast}

theorem steady_authentic : Steady (Authentic signers past) := fun _ _ _ h => h

theorem Pinged.later {past' : List (Env × Input)} (h : ∀ e ∈ past, e ∈ past') {key : CPubKey}
    {prevout : COutPoint} {ping : CMasternodePing} (hping : Pinged signers past key prevout ping) :
    Pinged signers past' key prevout ping := by
  rcases hping with hempty | ⟨hsigned, e, he, htime⟩
  · exact Or.inl hempty
  · exact Or.inr ⟨hsigned, e, h e he, htime⟩

theorem Ideal.pinged (horc : Texts orc) (hideal : Ideal orc signers) {key : CPubKey}
    {mnp : CMasternodePing}
    (hsig : orc.verifyMessage key mnp.vchSig (mnp.strMessage orc) = true)
    (htime : ∃ e ∈ past, mnp.sigTime ≤ e.1.adjustedTime + 60 * 60) :
    Pinged signers past key mnp.vin.prevout mnp := by
  rcases hideal.signed _ _ _ hsig with ⟨mnb, _, _, htext⟩ | ⟨mnp', hsigned, htext⟩
  · exact absurd htext (strMessage_ne_pingMessage mnb mnp)
  · obtain ⟨hvin, hblock, hsigTime⟩ := pingMessage_inj horc htext
    exact Or.inr ⟨⟨mnp', hsigned, hvin, hblock, hsigTime⟩, htime⟩

/-- What a broadcast that verifies has to satisfy beyond the tests of the node, where `pmn` is the
entry that it renews, if any. -/
structure Careful (orc : Oracles) (signers : Signers) (env : Env) (s : CMasternodeMan)
    (mnb : CMasternodeBroadcast) : Prop where
  /-- the holder of the key signed the text for no other outpoint and no other port -/
  outpoint : ∀ mnb', signers.announced mnb' →
    mnb'.pubKeyCollateralAddress = mnb.pubKeyCollateralAddress →
    mnb'.strMessage orc = mnb.strMessage orc →
    mnb'.vin.prevout = mnb.vin.prevout ∧ mnb'.addr.port = mnb.addr.port
  /-- the ping is empty, or is signed for the outpoint and not far ahead -/
  ping : mnb.lastPing.isEmpty = true ∨ mnb.lastPing.vin.prevout = mnb.vin.prevout ∧
    orc.verifyMessage mnb.pubKeyMasternode mnb.lastPing.vchSig (mnb.lastPing.strMessage orc) =
      true ∧
    mnb.lastPing.sigTime ≤ env.adjustedTime + 60 * 60
  /-- a new masternode key comes with a ping that replaces the old one -/
  key : ∀ pmn, s.find mnb.vin.prevout = some pmn → pmn.isEnabled = true →
    pmn.pubKeyMasternode = mnb.pubKeyMasternode ∨ pmn.lastPing.isEmpty = true ∨
      mnb.lastPing.isEmpty = true ∨ Accepts orc env (mnb.renew pmn) mnb.lastPing

/-- The outpoint has no enabled entry, or one that takes the broadcast over. -/
def Applies (env : Env) (s : CMasternodeMan) (mnb : CMasternodeBroadcast) : Prop :=
  ∀ pmn, s.find mnb.vin.prevout = some pmn → pmn.isEnabled = true → Renews env pmn mnb

/-- The condition on an event in the state before it. -/
def CarefulStep (orc : Oracles) (signers : Signers) (s : CMasternodeMan) (e : Env × Input) : Prop :=
  match e.2 with
  | .mnb mnb =>
    e.1.fLiteMode = false → e.1.isBlockchainSynced = true →
      s.mapSeenMasternodeBroadcast.count (mnb.getHash orc) = false → Passes orc e.1 mnb →
      Applies e.1 s mnb → Careful orc signers e.1 s mnb
  | _ => True

theorem Ideal.announced (horc : Texts orc) (hideal : Ideal orc signers) {s : CMasternodeMan}
    (hpass : Passes orc env mnb) (hcareful : Careful orc signers env s mnb) :
    ∃ mnb', signers.announced mnb' ∧
      mnb'.pubKeyCollateralAddress = mnb.pubKeyCollateralAddress ∧
      mnb'.vin.prevout = mnb.vin.prevout ∧ mnb'.addr = mnb.addr ∧
      mnb'.pubKeyMasternode = mnb.pubKeyMasternode ∧ mnb'.sigTime = mnb.sigTime := by
  rcases hideal.signed _ _ _ hpass.signature with ⟨mnb', hsigned, hkey, htext⟩ | ⟨mnp, _, htext⟩
  · obtain ⟨hvin, hport⟩ := hcareful.outpoint mnb' hsigned hkey htext
    obtain ⟨haddr, htime, hmn, _⟩ :=
      strMessage_inj horc hkey (hideal.valid mnb' hsigned) hport htext
    exact ⟨mnb', hsigned, hkey, hvin, haddr, hmn, htime⟩
  · exact absurd htext.symm (strMessage_ne_pingMessage mnb mnp)

end Entries

section Steps

variable {orc : Oracles} {signers : Signers} {past : List (Env × Input)} {env : Env}
  {s : CMasternodeMan} {mnb : CMasternodeBroadcast} {P : CMasternode → Prop}

theorem All.addNew (h : All P s) (hnew : P (.ofBroadcast mnb)) :
    All P (mnb.addNew orc env s).1 := by
  have hadd : All P (s.add (.ofBroadcast mnb)) := by
    unfold CMasternodeMan.add
    split
    · exact h
    · split
      · intro mn hmn
        rcases List.mem_append.mp hmn with hold | hlast
        · exact h mn hold
        · obtain rfl := List.mem_singleton.mp hlast
          exact hnew
      · exact h
  unfold CMasternodeBroadcast.addNew
  split
  · exact h
  · split
    · exact h
    · split
      · exact h
      · split
        · exact h
        · simp only
          split
          · exact hadd
          · exact hadd

theorem All.checkInputsAndAdd (h : All P s)
    (hnew : (∀ pmn, s.find mnb.vin.prevout = some pmn → pmn.isEnabled = false) →
      P (.ofBroadcast mnb)) : All P (mnb.checkInputsAndAdd orc env s).1 := by
  unfold CMasternodeBroadcast.checkInputsAndAdd
  split
  · exact h
  · split
    · next hfind =>
      exact h.addNew (hnew fun pmn hpmn => absurd (hfind.symm.trans hpmn) nofun)
    · next pmn hfind =>
      split
      · exact h
      · next hdis =>
        refine (h.remove pmn.vin).addNew (hnew fun pmn' hpmn => ?_)
        obtain rfl := Option.some.inj (hfind.symm.trans hpmn)
        simpa using hdis

theorem authentic_afterPing (horc : Texts orc) (hideal : Ideal orc signers)
    (he : ∃ e ∈ past, e.1 = env) (h : All (Authentic signers past) s) {pmn : CMasternode}
    {mnp : CMasternodePing} (hfind : s.find mnp.vin.prevout = some pmn)
    (haccept : Accepts orc env pmn mnp) :
    All (Authentic signers past) (afterPing orc env s pmn mnp) := by
  have hstore : All (Authentic signers past) (s.storePing orc pmn mnp) := by
    suffices hchange : All (Authentic signers past) (s.change mnp.vin.prevout (·.withPing mnp)) from
      hchange
    refine h.change fun mn hmn => ?_
    obtain rfl : pmn = mn := Option.some.inj (hfind.symm.trans hmn)
    have hping : Pinged signers past pmn.pubKeyMasternode mnp.vin.prevout mnp := by
      refine hideal.pinged horc haccept.signature ?_
      obtain ⟨e, hmem, rfl⟩ := he
      exact ⟨e, hmem, haccept.notAhead⟩
    rw [← (find_some hfind).2] at hping
    exact ⟨(h.find hfind).1, hping⟩
  exact hstore.change fun mn hmn => steady_authentic.check (hstore.find hmn) true

theorem authentic_ofBroadcast (horc : Texts orc) (hideal : Ideal orc signers)
    (he : ∃ e ∈ past, e.1 = env) (hpass : Passes orc env mnb)
    (hcareful : Careful orc signers env s mnb) :
    Announced signers (.ofBroadcast mnb) ∧
      Pinged signers past mnb.pubKeyMasternode mnb.vin.prevout mnb.lastPing := by
  refine ⟨hideal.announced horc hpass hcareful, ?_⟩
  rcases hcareful.ping with hempty | ⟨hvin, hsig, htime⟩
  · exact Or.inl hempty
  · obtain ⟨e, hmem, rfl⟩ := he
    rw [← hvin]
    exact hideal.pinged horc hsig ⟨e, hmem, htime⟩

theorem authentic_updateEntry (horc : Texts orc) (hideal : Ideal orc signers)
    (he : ∃ e ∈ past, e.1 = env) (h : All (Authentic signers past) s) {pmn : CMasternode}
    (hfind : s.find mnb.vin.prevout = some pmn) (hrenews : Renews env pmn mnb)
    (hpass : Passes orc env mnb) (hcareful : Careful orc signers env s mnb) :
    All (Authentic signers past) (mnb.updateEntry orc env s pmn).1 := by
  obtain ⟨F, hlist, ping, state, t, hF, hping⟩ := updateEntry_list orc env hfind
    hrenews.newer (hcareful.ping.imp_right fun hown => hown.1)
  obtain ⟨hannounced, hpinged⟩ := authentic_ofBroadcast horc hideal he hpass hcareful
  have hprevout : pmn.vin.prevout = mnb.vin.prevout := (find_some hfind).2
  have hrenewed : Authentic signers past (F pmn) := by
    rw [hF]
    refine ⟨?_, ?_⟩
    · obtain ⟨mnb', hsigned, hkey, hvin, hrest⟩ := hannounced
      exact ⟨mnb', hsigned, hkey, hvin.trans hprevout.symm, hrest⟩
    · change Pinged signers past mnb.pubKeyMasternode pmn.vin.prevout ping
      rcases hping with rfl | ⟨rfl, hnonempty, hno⟩
      · rw [hprevout]
        exact hpinged
      · rcases hcareful.key pmn hfind hrenews.enabled with hkey | hold | hempty | haccept
        · rw [← hkey]
          exact (h.find hfind).2
        · exact Or.inl hold
        · rw [hempty] at hnonempty
          exact Bool.noConfusion hnonempty
        · exact absurd haccept hno
  intro mn hmn
  rw [hlist] at hmn
  rcases mem_changeFirst hmn with hmem | ⟨mn₀, hfound, rfl⟩
  · exact h mn hmem
  · obtain rfl : pmn = mn₀ := Option.some.inj (hfind.symm.trans hfound)
    exact hrenewed

theorem authentic_processBroadcast (horc : Texts orc) (hideal : Ideal orc signers)
    (he : ∃ e ∈ past, e.1 = env) (h : All (Authentic signers past) s)
    (hcareful : s.mapSeenMasternodeBroadcast.count (mnb.getHash orc) = false →
      Passes orc env mnb → Applies env s mnb → Careful orc signers env s mnb) :
    All (Authentic signers past) (processBroadcast orc env s mnb).1 := by
  unfold processBroadcast
  split
  · exact h
  · next hseen =>
    have hcareful := hcareful (by simpa using hseen)
    simp only
    -- the message is only remembered: the list is that of `s`
    generalize hs₀ : ({ s with mapSeenMasternodeBroadcast :=
      s.mapSeenMasternodeBroadcast.insert (mnb.getHash orc) mnb } : CMasternodeMan) = s₀
    have hlist : s₀.vMasternodes = s.vMasternodes := by rw [← hs₀]
    have hfind : s₀.find = s.find := by
      unfold CMasternodeMan.find
      rw [hlist]
    have h₀ : All (Authentic signers past) s₀ := by
      unfold All
      rw [hlist]
      exact h
    by_cases hpass : Passes orc env mnb
    · rw [checkAndUpdate_of_passes hpass]
      have hnew : Applies env s mnb → Authentic signers past (.ofBroadcast mnb) :=
        fun happlies => authentic_ofBroadcast horc hideal he hpass (hcareful hpass happlies)
      rcases updateListed_cases orc env s₀ mnb with
        ⟨pmn, hpmn, hrenews, heq⟩ | ⟨hsame, _⟩
      · have happlies : Applies env s mnb := by
          intro pmn' hpmn' _
          rw [hfind] at hpmn
          obtain rfl : pmn = pmn' := Option.some.inj (hpmn.symm.trans hpmn')
          exact hrenews
        have hcareful₀ : Careful orc signers env s₀ mnb := by
          have hc := hcareful hpass happlies
          exact ⟨hc.outpoint, hc.ping, fun pmn' hpmn' => hc.key pmn' (by rwa [← hfind])⟩
        have hupdated := authentic_updateEntry horc hideal he h₀ hpmn hrenews hpass hcareful₀
        have hchecked : All (Authentic signers past)
            ((mnb.updateEntry orc env s₀ pmn).1.change mnb.vin.prevout (·.check env false)) :=
          hupdated.change fun mn hmn => steady_authentic.check (hupdated.find hmn) false
        rw [heq]
        simp only
        split
        · exact hchecked
        · exact hchecked.checkInputsAndAdd fun _ => hnew happlies
      · cases hr : mnb.updateListed orc env s₀ with
        | mk s' verdict =>
          rw [hr] at hsame
          obtain rfl : s' = s₀ := hsame
          cases verdict with
          | refused nDos => exact h₀
          | ok =>
            simp only
            split
            · exact h₀
            · refine h₀.checkInputsAndAdd fun hdis => hnew fun pmn hpmn hen => ?_
              rw [hdis pmn (by rwa [hfind])] at hen
              exact Bool.noConfusion hen
    · obtain ⟨nDos, hrefused⟩ := checkAndUpdate_of_not_passes (s := s₀) hpass
      rw [hrefused]
      exact h₀

theorem authentic_step (horc : Texts orc) (hideal : Ideal orc signers) {e : Env × Input}
    (h : All (Authentic signers past) s) (hcareful : CarefulStep orc signers s e) :
    All (Authentic signers (past ++ [e])) (step orc s e) := by
  have h : All (Authentic signers (past ++ [e])) s := fun mn hmn =>
    ⟨(h mn hmn).1, (h mn hmn).2.later fun e' he' => List.mem_append_left _ he'⟩
  have he : ∃ e' ∈ past ++ [e], e'.1 = e.1 := ⟨e, by simp, rfl⟩
  obtain ⟨env, input⟩ := e
  cases input with
  | mnb mnb =>
    unfold step
    simp only
    split
    · exact h
    · next hsync =>
      simp only [Bool.or_eq_true, not_or, Bool.not_eq_true, Bool.not_eq_false'] at hsync
      exact authentic_processBroadcast horc hideal he h (hcareful hsync.1 hsync.2)
  | mnp mnp =>
    unfold step
    simp only
    split
    · exact h
    · unfold processPing
      split
      · exact h
      · rcases checkAndUpdate_cases orc env
          { s with
            mapSeenMasternodePing := s.mapSeenMasternodePing.insert (mnp.getHash orc) mnp }
          mnp true with
          ⟨hsame, _⟩ | ⟨pmn, hfind, haccept, _, heq⟩
        · rw [hsame]
          exact h
        · rw [heq]
          exact authentic_afterPing horc hideal he h hfind haccept
  | check => exact h.checkAll steady_authentic
  | checkAndRemove forceExpiredRemoval =>
    intro mn hmn
    exact h.checkAll steady_authentic mn (List.mem_of_mem_filter hmn)

/-- In every run whose broadcasts are careful, every entry carries what its owners signed. -/
theorem entries_authentic (horc : Texts orc) (hideal : Ideal orc signers)
    (es : List (Env × Input)) (hes : Meets (step orc) (CarefulStep orc signers) .init es) :
    ∀ mn ∈ (run (step orc) .init es).vMasternodes, Authentic signers es mn := by
  have h : All (Authentic signers ([] ++ es)) (run (step orc) .init es) :=
    run_history (I := fun past s => All (Authentic signers past) s)
    (fun past s e h hcareful => authentic_step horc hideal h hcareful) []
    (fun mn hmn => absurd hmn List.not_mem_nil) hes
  rwa [List.nil_append] at h

end Steps

section Samples

def ownerKey : CPubKey := ⟨2 :: List.replicate 32 1, rfl⟩

def firstKey : CPubKey := ⟨3 :: List.replicate 32 1, rfl⟩

def secondKey : CPubKey := ⟨3 :: List.replicate 32 2, rfl⟩

def sampleNames : Oracles where
  verifyMessage := fun _ _ _ => false
  hashBroadcast := fun sigTime _ => BitVec.ofInt 256 sigTime
  hashPing := fun vin sigTime => vin.prevout.hash + BitVec.ofInt 256 sigTime
  keyID := fun pubkey => BitVec.ofNat 160 (pubkey.vch.map UInt8.toNat).sum
  ipv6ToString := fun ip => String.ofList (Digits.fixed Nat.digitChar 16 32 ip.toNat)
  scriptToString := fun _ => ""

/-- A node at height 1000, to which every output of the owner's transactions is a collateral. -/
def sampleEnv (t : ℤ) : Env where
  shutdownRequested := false
  fLiteMode := false
  isBlockchainSynced := true
  isMain := true
  now := t
  adjustedTime := t
  minMasternodePaymentsProto := 70920
  height := 1000
  blockHeight := fun hash => if hash = 9 then some 990 else none
  lockMain := true
  acceptableInputs := fun _ => .ok
  getInputAge := fun _ => 100
  getTransaction := fun _ =>
    some [⟨15000 * coin, CMasternodeBroadcast.payeeScript sampleNames ownerKey, -10⟩]
  collateral := 15000 * coin
  confirmTime := fun _ => none
  fMasterNode := false
  activePubKeyMasternode := firstKey
  protocolVersion := 70922

def sampleVin (hash : Uint256) : CTxIn := ⟨⟨hash, 0⟩, [], BitVec.allOnes 32⟩

/-- The announcement of outpoint 50. -/
def sampleBroadcast : CMasternodeBroadcast where
  vin := sampleVin 50
  addr := ⟨0xffff01020304, 42222⟩
  pubKeyCollateralAddress := ownerKey
  pubKeyMasternode := firstKey
  sig := [1]
  sigTime := 1600000000
  protocolVersion := 70922
  lastPing := .empty

/-- The next announcement, with another masternode key and with a ping of an unknown block. -/
def sampleRenewal : CMasternodeBroadcast := { sampleBroadcast with
  pubKeyMasternode := secondKey
  sigTime := 1600003600
  lastPing := ⟨sampleVin 50, 8, 1600003600, [2]⟩ }

def samplePing : CMasternodePing := ⟨sampleVin 50, 9, 1600000000, [1]⟩

def sampleOracles : Oracles := { sampleNames with
  verifyMessage := fun key sig text => sig == [1] &&
    (key == ownerKey && (text == sampleBroadcast.strMessage sampleNames ||
        text == sampleRenewal.strMessage sampleNames) ||
      key == firstKey && text == samplePing.strMessage sampleNames) }

def sampleSigners : Signers where
  announced := fun mnb => mnb = sampleBroadcast ∨ mnb = sampleRenewal
  pinged := fun key mnp => key = firstKey ∧ mnp = samplePing

theorem sampleOracles_ideal : Ideal sampleOracles sampleSigners where
  signed := by
    intro key sig text h
    simp only [sampleOracles, Bool.and_eq_true, Bool.or_eq_true, beq_iff_eq] at h
    obtain ⟨_, ⟨rfl, rfl | rfl⟩ | ⟨rfl, rfl⟩⟩ := h
    · exact Or.inl ⟨sampleBroadcast, Or.inl rfl, rfl, rfl⟩
    · exact Or.inl ⟨sampleRenewal, Or.inr rfl, rfl, rfl⟩
    · exact Or.inr ⟨samplePing, ⟨rfl, rfl⟩, rfl⟩
  valid := by
    intro mnb h
    rcases h with rfl | rfl
    · exact List.cons_ne_nil _ _
    · exact List.cons_ne_nil _ _

theorem sampleOracles_texts : Texts sampleOracles where
  ipv6_injective := by
    intro ip ip' h
    have htext := String.ofList_injective h
    exact BitVec.eq_of_toNat_eq (Digits.fixed_inj digitChar_inj ip.isLt ip'.isLt htext)
  ipv6_bracket := by
    intro ip hmem
    rw [sampleOracles, sampleNames, String.toList_ofList] at hmem
    obtain ⟨d, hd, heq⟩ := Digits.mem_fixed (by decide) hmem
    revert d
    decide
  script_paren := fun _ => List.not_mem_nil

set_option maxRecDepth 2000 in
/-- An observer who changes the outpoint of an announcement registers the other outpoint, one who
adds a ping that nobody signed keeps the entry alive, and the ping of the first masternode key
stays after the second key was announced. -/
theorem observer_forges_entries :
    Texts sampleOracles ∧ Ideal sampleOracles sampleSigners ∧
    (∃ mn ∈ (run (step sampleOracles) .init [(sampleEnv 1600000000,
        .mnb { sampleBroadcast with vin := sampleVin 51 })]).vMasternodes,
      ¬Announced sampleSigners mn) ∧
    (∃ mn ∈ (run (step sampleOracles) .init [(sampleEnv 1600000000,
        .mnb { sampleBroadcast with lastPing := ⟨sampleVin 50, 8, 1700000000, []⟩ })]).vMasternodes,
      ∀ past, ¬Pinged sampleSigners past mn.pubKeyMasternode mn.vin.prevout mn.lastPing) ∧
    (∃ mn ∈ (run (step sampleOracles) .init [(sampleEnv 1600000000, .mnb sampleBroadcast),
        (sampleEnv 1600000000, .mnp samplePing),
        (sampleEnv 1600003600, .mnb sampleRenewal)]).vMasternodes,
      ∀ past, ¬Pinged sampleSigners past mn.pubKeyMasternode mn.vin.prevout mn.lastPing) := by
  refine ⟨sampleOracles_texts, sampleOracles_ideal, ?_, ?_, ?_⟩
  · refine ⟨.ofBroadcast { sampleBroadcast with vin := sampleVin 51 }, by decide, fun h => ?_⟩
    obtain ⟨mnb, rfl | rfl, _, hvin, _⟩ := h
    · exact absurd hvin (by decide)
    · exact absurd hvin (by decide)
  · refine ⟨.ofBroadcast { sampleBroadcast with lastPing := ⟨sampleVin 50, 8, 1700000000, []⟩ },
      by decide, fun past h => ?_⟩
    rcases h with hempty | ⟨⟨mnp, ⟨_, rfl⟩, _, _, htime⟩, _⟩
    · exact absurd hempty (by decide)
    · exact absurd htime (by decide)
  · refine ⟨renewed sampleRenewal samplePing .enabled 1600003600 (.ofBroadcast sampleBroadcast),
      by decide, fun past h => ?_⟩
    rcases h with hempty | ⟨⟨mnp, ⟨hkey, _⟩, _⟩, _⟩
    · exact absurd hempty (by decide)
    · exact absurd hkey (by decide)

theorem entries_authentic_sample :
    All (Authentic sampleSigners [(sampleEnv 1600000000, .mnb sampleBroadcast),
        (sampleEnv 1600000000, .mnp samplePing)])
      (run (step sampleOracles) .init [(sampleEnv 1600000000, .mnb sampleBroadcast),
        (sampleEnv 1600000000, .mnp samplePing)]) := by
  have hfirst : Careful sampleOracles sampleSigners (sampleEnv 1600000000) .init
      sampleBroadcast := by
    refine ⟨fun mnb' hsigned _ _ => ?_, Or.inl rfl, fun pmn hfind => absurd hfind nofun⟩
    rcases hsigned with rfl | rfl
    · exact ⟨rfl, rfl⟩
    · exact ⟨rfl, rfl⟩
  apply entries_authentic sampleOracles_texts sampleOracles_ideal
  rw [meets_cons, meets_cons]
  exact ⟨fun _ _ _ _ _ => hfirst, trivial, meets_nil _ _ _⟩

end Samples

end Scrypta.Masternodes
