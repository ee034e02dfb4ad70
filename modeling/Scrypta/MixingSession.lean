import Scrypta.MixingSteps
import Scrypta.SigningComplete
import Scrypta.Toolkit.PackedBits

/-! The books of a mixing session: the number of its users, their collaterals and their entries. A
client that hands in an entry is taken off the number when the pool refuses it, whoever it is. -/

namespace Scrypta.Mixing

/-! Denominations. -/

/-- The outputs are of the same denominations. -/
def SameDenominations (v w : List CTxOut) : Prop :=
  ∀ d, (∃ out ∈ v, out.nValue = d) ↔ ∃ out ∈ w, out.nValue = d

theorem SameDenominations.symm {v w : List CTxOut} (h : SameDenominations v w) :
    SameDenominations w v := fun d => (h d).symm

def usesDenomination (vout : List CTxOut) (c : ℕ) : Bool :=
  vout.any fun out => obfuScationDenominations[c]? == some out.nValue

theorem testBit_getDenominations {vout : List CTxOut}
    (h : ∀ out ∈ vout, out.nValue ∈ obfuScationDenominations) (c : ℕ) :
    (getDenominations vout).testBit c =
      (decide (c < obfuScationDenominations.length) && usesDenomination vout c) := by
  unfold getDenominations
  rw [if_pos (List.all_eq_true.mpr fun out hout => List.contains_iff_mem.mpr (h out hout))]
  exact PackedBits.testBit_foldl_or (usesDenomination vout) _ c

theorem getDenominations_of_ne_zero {vout : List CTxOut} (h : getDenominations vout ≠ 0) :
    (∀ out ∈ vout, out.nValue ∈ obfuScationDenominations) ∧
      ∀ c, (getDenominations vout).testBit c =
        (decide (c < obfuScationDenominations.length) && usesDenomination vout c) := by
  have hall : ∀ out ∈ vout, out.nValue ∈ obfuScationDenominations := by
    unfold getDenominations at h
    split at h
    · rename_i hall
      exact fun out hout => List.contains_iff_mem.mp (List.all_eq_true.mp hall out hout)
    · exact absurd rfl h
  exact ⟨hall, testBit_getDenominations hall⟩

theorem sameDenominations_of_eq {v w : List CTxOut} (h : getDenominations v ≠ 0)
    (heq : getDenominations v = getDenominations w) : SameDenominations v w := by
  have hsub {v w : List CTxOut} (h : getDenominations v ≠ 0)
      (heq : getDenominations v = getDenominations w) {out : CTxOut} (hout : out ∈ v) :
      ∃ out' ∈ w, out'.nValue = out.nValue := by
    obtain ⟨hv, hbits⟩ := getDenominations_of_ne_zero h
    obtain ⟨-, hbits'⟩ := getDenominations_of_ne_zero (heq ▸ h)
    obtain ⟨c, hc⟩ := List.mem_iff_getElem?.mp (hv out hout)
    have hlt := (List.getElem?_eq_some_iff.mp hc).1
    have huses : usesDenomination v c = true :=
      List.any_eq_true.mpr ⟨out, hout, by rw [hc]; exact beq_self_eq_true _⟩
    have hbit := hbits c
    rw [heq, hbits' c, huses, decide_eq_true hlt, Bool.true_and, Bool.true_and] at hbit
    obtain ⟨out', hout', hvalue⟩ := List.any_eq_true.mp hbit
    rw [hc, beq_iff_eq, Option.some.injEq] at hvalue
    exact ⟨out', hout', hvalue.symm⟩
  intro d
  constructor
  · rintro ⟨out, hout, rfl⟩
    exact hsub h heq hout
  · rintro ⟨out, hout, rfl⟩
    exact hsub (heq ▸ h) heq.symm hout

/-! The books. -/

def outpoints (entries : List CObfuScationEntry) : List COutPoint :=
  entries.flatMap fun v => v.sev.map fun s => s.prevout

structure Books (node : Node) (pool : CObfuscationPool) : Prop where
  users : 0 ≤ pool.sessionUsers ∧ pool.sessionUsers ≤ node.nPoolMaxTransactions
  collaterals : pool.sessionUsers = pool.vecSessionCollateral.length
  entries : (pool.entries.length : ℤ) ≤ pool.sessionUsers
  outpoints : (outpoints pool.entries).Nodup
  denominations : ∀ v ∈ pool.entries, ∀ w ∈ pool.entries, SameDenominations v.vout w.vout

/-- What the books see of an entry. -/
def account (v : CObfuScationEntry) : List COutPoint × List CTxOut :=
  (v.sev.map fun s => s.prevout, v.vout)

/-- The two pools have the same books. -/
structure SameBooks (pool pool' : CObfuscationPool) : Prop where
  users : pool'.sessionUsers = pool.sessionUsers
  collaterals : pool'.vecSessionCollateral = pool.vecSessionCollateral
  accounts : pool'.entries.map account = pool.entries.map account

/-- Nobody is in the session. -/
structure Vacant (pool : CObfuscationPool) : Prop where
  users : pool.sessionUsers = 0
  collaterals : pool.vecSessionCollateral = []
  entries : pool.entries = []

theorem outpoints_eq (entries : List CObfuScationEntry) :
    outpoints entries = (entries.map account).flatMap Prod.fst := by
  rw [List.flatMap_map]
  rfl

theorem SameBooks.refl (pool : CObfuscationPool) : SameBooks pool pool := ⟨rfl, rfl, rfl⟩

theorem SameBooks.symm {p q : CObfuscationPool} (h : SameBooks p q) : SameBooks q p :=
  ⟨h.users.symm, h.collaterals.symm, h.accounts.symm⟩

theorem SameBooks.trans {p q r : CObfuscationPool} (hpq : SameBooks p q) (hqr : SameBooks q r) :
    SameBooks p r :=
  ⟨hqr.users.trans hpq.users, hqr.collaterals.trans hpq.collaterals,
    hqr.accounts.trans hpq.accounts⟩

theorem SameBooks.length {pool pool' : CObfuscationPool} (h : SameBooks pool pool') :
    pool'.entries.length = pool.entries.length := by
  have hlen := congrArg List.length h.accounts
  rwa [List.length_map, List.length_map] at hlen

theorem Books.of_same {node : Node} {pool pool' : CObfuscationPool} (h : Books node pool)
    (hsame : SameBooks pool pool') : Books node pool' := by
  refine ⟨?_, ?_, ?_, ?_, fun v hv w hw => ?_⟩
  · rw [hsame.users]
    exact h.users
  · rw [hsame.users, hsame.collaterals]
    exact h.collaterals
  · rw [hsame.users, hsame.length]
    exact h.entries
  · rw [outpoints_eq, hsame.accounts, ← outpoints_eq]
    exact h.outpoints
  · have hold {v : CObfuScationEntry} (hv : v ∈ pool'.entries) :
        ∃ v' ∈ pool.entries, v'.vout = v.vout := by
      have hmem := List.mem_map_of_mem (f := account) hv
      rw [hsame.accounts] at hmem
      obtain ⟨v', hv', haccount⟩ := List.mem_map.mp hmem
      exact ⟨v', hv', congrArg Prod.snd haccount⟩
    obtain ⟨v', hv', hvout⟩ := hold hv
    obtain ⟨w', hw', hwout⟩ := hold hw
    rw [← hvout, ← hwout]
    exact h.denominations v' hv' w' hw'

theorem Vacant.books {pool : CObfuscationPool} (h : Vacant pool) (node : Node) :
    Books node pool := by
  obtain ⟨husers, hcollaterals, hentries⟩ := h
  refine ⟨?_, ?_, ?_, ?_, fun v hv => ?_⟩
  · rw [husers]
    exact ⟨le_rfl, Int.natCast_nonneg _⟩
  · rw [husers, hcollaterals]
    rfl
  · rw [husers, hentries]
    rfl
  · rw [hentries]
    exact List.nodup_nil
  · rw [hentries] at hv
    exact absurd hv List.not_mem_nil

section Steps

variable {node : Node} {m : Moment} {pool : CObfuscationPool}

theorem vacant_setNull (m : Moment) (pool : CObfuscationPool) : Vacant (pool.setNull m) :=
  ⟨rfl, rfl, rfl⟩

theorem sameBooks_updateState (m : Moment) (newState : PoolStatus) (pool : CObfuscationPool) :
    SameBooks pool (pool.updateState m newState) := by
  refine ⟨?_, ?_, ?_⟩ <;> simp

theorem Vacant.updateState (h : Vacant pool) (m : Moment) (newState : PoolStatus) :
    Vacant (pool.updateState m newState) := by
  refine ⟨?_, ?_, ?_⟩
  · rw [sessionUsers_updateState]
    exact h.users
  · rw [vecSessionCollateral_updateState]
    exact h.collaterals
  · rw [entries_updateState]
    exact h.entries

/-! The check for the next phase. -/

/-- Only a pool whose inputs are all signed gives its session up. -/
theorem Checked.books {q : CObfuscationPool} (h : Checked node m pool q) :
    SameBooks pool q ∨ signaturesComplete pool = true ∧ Vacant q := by
  induction h with
  | stays => exact .inl (.refl pool)
  | assembles =>
    exact .inl ⟨rfl, rfl, rfl⟩
  | transmits _ hcomplete ih =>
    rcases ih with hsame | ⟨-, hvacant⟩
    · exact .inl (hsame.trans (sameBooks_updateState m _ _))
    · exact .inr ⟨hcomplete, hvacant.updateState m _⟩
  | resets q hcomplete => exact .inr ⟨hcomplete, vacant_setNull m q⟩
  | refuses q hcomplete => exact .inr ⟨hcomplete, (vacant_setNull m q).updateState m _⟩

theorem Books.checked {q : CObfuscationPool} (h : Books node pool)
    (hchecked : Checked node m pool q) : Books node q := by
  rcases hchecked.books with hsame | ⟨-, hvacant⟩
  · exact h.of_same hsame
  · exact hvacant.books node

/-! Joining. -/

/-- One user more, with a collateral. -/
theorem Books.join {pool' : CObfuscationPool} (h : Books node pool) (txCollateral : CTransaction)
    (hroom : pool.sessionUsers < node.nPoolMaxTransactions)
    (husers : pool'.sessionUsers = pool.sessionUsers + 1)
    (hcollaterals : pool'.vecSessionCollateral = pool.vecSessionCollateral ++ [txCollateral])
    (hentries : pool'.entries = pool.entries) : Books node pool' := by
  have hold := h.users
  have hlen := h.collaterals
  have hcount := h.entries
  refine ⟨?_, ?_, ?_, ?_, ?_⟩
  · rw [husers]
    omega
  · rw [husers, hcollaterals, List.length_append, List.length_singleton]
    omega
  · rw [husers, hentries]
    omega
  · rw [hentries]
    exact h.outpoints
  · rw [hentries]
    exact h.denominations

theorem Books.joined {nDenom : ℤ} {txCollateral : CTransaction} {q : CObfuscationPool}
    (h : Books node pool) (hjoined : Joined node m nDenom txCollateral pool q) : Books node q := by
  cases hjoined with
  | stays => exact h
  | starts hnone =>
    have hzero : pool.sessionUsers = 0 := le_antisymm hnone h.users.1
    refine h.join txCollateral ?_ ?_ rfl rfl
    · rw [hzero]
      exact_mod_cast node.nPoolMaxTransactions_pos
    · rw [hzero]
      rfl
  | joins _ hroom => exact h.join txCollateral hroom rfl rfl rfl

/-! Signing. -/

theorem map_prevout_addSig {vin : CTxIn} {sev sev' : List CTxDSIn}
    (h : addSig vin sev = some sev') :
    (sev'.map fun s => s.prevout) = sev.map fun s => s.prevout := by
  induction sev generalizing sev' with
  | nil => exact nomatch h
  | cons s sev ih =>
    rw [addSig] at h
    split at h
    · split at h
      · exact nomatch h
      · cases h
        rfl
    · obtain ⟨sev₁, hsev, rfl⟩ := Option.map_eq_some_iff.mp h
      rw [List.map_cons, List.map_cons, ih hsev]

theorem map_account_addSigs {vin : CTxIn} {entries entries' : List CObfuScationEntry}
    (h : addSigs vin entries = some entries') :
    entries'.map account = entries.map account := by
  induction entries generalizing entries' with
  | nil => exact nomatch h
  | cons e entries ih =>
    rw [addSigs] at h
    split at h
    · next sev hsev =>
      cases h
      rw [List.map_cons, List.map_cons]
      exact congrArg (· :: entries.map account)
        (congrArg (·, e.vout) (map_prevout_addSig hsev))
    · obtain ⟨entries₁, hentries, rfl⟩ := Option.map_eq_some_iff.mp h
      rw [List.map_cons, List.map_cons, ih hentries]

theorem addScriptSig_same (node : Node) (newVin : CTxIn) (pool : CObfuscationPool) :
    SameBooks pool (addScriptSig node newVin pool).1 ∧
      (addScriptSig node newVin pool).1.state = pool.state := by
  unfold addScriptSig
  split
  · exact ⟨.refl pool, rfl⟩
  split
  · exact ⟨.refl pool, rfl⟩
  dsimp only
  cases hentries : addSigs newVin pool.entries with
  | some entries => exact ⟨⟨rfl, rfl, map_account_addSigs hentries⟩, rfl⟩
  | none => exact ⟨⟨rfl, rfl, rfl⟩, rfl⟩

theorem addScriptSigs_same (node : Node) (sigs : List CTxIn) (pool : CObfuscationPool) :
    SameBooks pool (addScriptSigs node sigs pool).1 ∧
      (addScriptSigs node sigs pool).1.state = pool.state := by
  induction sigs generalizing pool with
  | nil => exact ⟨.refl pool, rfl⟩
  | cons item sigs ih =>
    obtain ⟨hsame, hstate⟩ := addScriptSig_same node item pool
    obtain ⟨hsame', hstate'⟩ := ih (addScriptSig node item pool).1
    exact ⟨hsame.trans hsame', hstate'.trans hstate⟩

theorem Books.dss (h : Books node pool) (hsettled : Settled pool) (m : Moment) (nVersion : ℤ)
    (sigs : List CTxIn) : Books node (processDss node m nVersion sigs pool) ∧
      Settled (processDss node m nVersion sigs pool) := by
  unfold processDss
  split
  · exact ⟨h, hsettled⟩
  obtain ⟨hsame, hstate⟩ := addScriptSigs_same node sigs pool
  have hsigned : Settled (addScriptSigs node sigs pool).1 := by
    rw [Settled, hstate]
    exact hsettled
  have hchecked := Mixing.checked node m hsigned
  dsimp only
  split
  · exact ⟨(h.of_same hsame).checked hchecked, hchecked.settled hsigned⟩
  · exact ⟨h.of_same hsame, hsigned⟩

/-! Timeouts. -/

theorem outpoints_sublist {entries entries' : List CObfuScationEntry}
    (h : entries'.Sublist entries) : (outpoints entries').Sublist (outpoints entries) := by
  induction h with
  | slnil => exact .refl _
  | cons v _ ih => exact ih.trans (List.sublist_append_right _ _)
  | cons_cons v _ ih => exact (List.Sublist.refl _).append ih

theorem Books.sublist {entries : List CObfuScationEntry} (h : Books node pool)
    (hsub : entries.Sublist pool.entries) : Books node { pool with entries := entries } where
  users := h.users
  collaterals := h.collaterals
  entries := (Int.ofNat_le.mpr hsub.length_le).trans h.entries
  outpoints := h.outpoints.sublist (outpoints_sublist hsub)
  denominations v hv w hw := h.denominations v (hsub.subset hv) w (hsub.subset hw)

theorem Books.timedOut {q : CObfuscationPool} (h : Books node pool)
    (htimed : TimedOut m pool q) : Books node q := by
  cases htimed with
  | stays => exact h
  | expires => exact h.sublist List.filter_sublist
  | resets q => exact (vacant_setNull m q).books node

theorem Books.checkForCompleteQueue (h : Books node pool) (m : Moment) :
    Books node (checkForCompleteQueue node m pool) := by
  unfold Mixing.checkForCompleteQueue
  split
  · exact h.of_same (sameBooks_updateState m _ pool)
  · exact h

/-! Handing in. -/

theorem prevouts_entry (m : Moment) (msg : Dsi) :
    ((msg.entry m).sev.map fun s => s.prevout) = msg.vin.map (·.prevout) := by
  rw [Dsi.entry, List.map_map]
  rfl

theorem outpoints_append (entries : List CObfuScationEntry) (v : CObfuScationEntry) :
    outpoints (entries ++ [v]) = outpoints entries ++ v.sev.map fun s => s.prevout := by
  rw [outpoints, List.flatMap_append, List.flatMap_singleton]
  rfl

/-- An entry with other outpoints and the denominations of the session. -/
theorem Books.add {msg : Dsi} (h : Books node pool)
    (hready : (node.nPoolMaxTransactions : ℤ) ≤ pool.sessionUsers)
    (hroom : pool.entries.length < node.nPoolMaxTransactions)
    (hcompatible : pool.isCompatibleWithEntries msg.vout = true)
    (hnodup : (msg.vin.map (·.prevout)).Nodup)
    (hother : ∀ txin ∈ msg.vin, txin.prevout ∉ Mixing.outpoints pool.entries) (m : Moment) :
    Books node { pool with entries := pool.entries ++ [msg.entry m] } := by
  unfold CObfuscationPool.isCompatibleWithEntries at hcompatible
  rw [Bool.and_eq_true, bne_iff_ne, List.all_eq_true] at hcompatible
  have hsame {v : CObfuScationEntry} (hv : v ∈ pool.entries) :
      SameDenominations msg.vout v.vout :=
    sameDenominations_of_eq hcompatible.1 (beq_iff_eq.mp (hcompatible.2 v hv))
  refine ⟨h.users, h.collaterals, ?_, ?_, fun v hv w hw => ?_⟩
  · rw [List.length_append, List.length_singleton]
    change ((pool.entries.length + 1 : ℕ) : ℤ) ≤ pool.sessionUsers
    omega
  · rw [outpoints_append, prevouts_entry]
    refine h.outpoints.append hnodup fun o hold hnew => ?_
    obtain ⟨txin, htxin, rfl⟩ := List.mem_map.mp hnew
    exact hother txin htxin hold
  · rw [List.mem_append, List.mem_singleton] at hv hw
    rcases hv with hv | rfl
    · rcases hw with hw | rfl
      · exact h.denominations v hv w hw
      · exact (hsame hv).symm
    · rcases hw with hw | rfl
      · exact hsame hw
      · exact fun _ => Iff.rfl

end Steps

/-! Runs. -/

/-- The pool takes an entry from such a message. -/
structure Dsi.Fair (node : Node) (m : Moment) (msg : Dsi) (pool : CObfuscationPool) : Prop where
  amount : 0 ≤ msg.nAmount
  collateral : isCollateralValid node m msg.txCollateral = true
  room : pool.entries.length < node.nPoolMaxTransactions
  others : ∀ txin ∈ msg.vin, txin.prevout ∉ outpoints pool.entries

/-- A `dsi` message that is not refused before it comes to the pool is one for the pool. -/
def Fair (node : Node) (pool : CObfuscationPool) : Event → Prop
  | .dsi m nVersion msg => refusesDsi node m nVersion msg pool = none → msg.Fair node m pool
  | _ => True

/-- The event is a `dsi` message that the node answers with a refusal. -/
def Refused (node : Node) (pool : CObfuscationPool) : Event → Prop
  | .dsi m nVersion msg => (processDsi node m nVersion msg pool).2.accepted = false
  | _ => False

structure Keeps (node : Node) (pool : CObfuscationPool) (e : Event) : Prop where
  books : Books node (step node pool e)
  refused : Refused node pool e → step node pool e = pool

section Runs

variable {node : Node} {pool : CObfuscationPool}

theorem signaturesComplete_add {m : Moment} {msg : Dsi} (hvin : msg.vin ≠ []) :
    signaturesComplete { pool with entries := pool.entries ++ [msg.entry m] } = false := by
  obtain ⟨txin, hmem⟩ := List.exists_mem_of_ne_nil _ hvin
  rw [← Bool.not_eq_true]
  intro hcomplete
  have hentry := List.all_eq_true.mp hcomplete (msg.entry m)
    (List.mem_append_right _ (List.mem_singleton_self _))
  exact nomatch List.all_eq_true.mp hentry (CTxDSIn.ofTxIn txin) (List.mem_map_of_mem hmem)

/-- A message is dealt with as it should be just when the pool takes it or it has been refused
before. -/
theorem HandedIn.keeps_iff {m : Moment} {nVersion : ℤ} {msg : Dsi} {q : CObfuscationPool}
    {accepted : Bool} (hin : HandedIn node m nVersion msg pool q accepted) (h : Books node pool) :
    Books node q ∧ (accepted = false → q = pool) ↔
      (refusesDsi node m nVersion msg pool = none → msg.Fair node m pool) := by
  cases hin with
  | refuses hrefuses =>
    refine ⟨fun _ hnone => ?_, fun _ => ⟨h, fun _ => rfl⟩⟩
    rw [hrefuses] at hnone
    exact nomatch hnone
  | drops hnone hdropped =>
    obtain ⟨-, -, -, hnull, -⟩ := of_refusesDsi hnone
    refine ⟨fun hkeeps => ?_, fun hfair => absurd ?_ hdropped⟩
    · have husers : pool.sessionUsers - 1 = pool.sessionUsers :=
        congrArg CObfuscationPool.sessionUsers (hkeeps.2 rfl)
      omega
    · obtain ⟨hamount, hcollateral, hroom, hothers⟩ := hfair hnone
      refine addEntry_accepts.mpr ⟨fun txin hmem => ⟨hnull txin hmem, hamount⟩, hcollateral, hroom,
        fun txin hmem v hv s hs heq => hothers txin hmem ?_⟩
      rw [← heq]
      exact List.mem_flatMap.mpr ⟨v, hv, List.mem_map_of_mem (f := fun s => s.prevout) hs⟩
  | adds hnone hadded hchecked =>
    obtain ⟨hready, hcompatible, hvin, -, hnodup⟩ := of_refusesDsi hnone
    obtain ⟨hinputs, hcollateral, hroom, -⟩ := addEntry_accepts.mp hadded
    have hsame := hchecked.books.resolve_right fun hcomplete => by
      rw [signaturesComplete_add hvin] at hcomplete
      exact nomatch hcomplete.1
    refine ⟨fun hkeeps _ => ⟨?_, hcollateral, hroom, ?_⟩, fun hfair => ⟨?_, nofun⟩⟩
    · obtain ⟨txin, hmem⟩ := List.exists_mem_of_ne_nil _ hvin
      exact (hinputs txin hmem).2
    · intro txin hmem hold
      have hnodup := (hkeeps.1.of_same hsame.symm).outpoints
      rw [outpoints_append, prevouts_entry] at hnodup
      exact List.disjoint_of_nodup_append hnodup hold (List.mem_map_of_mem hmem)
    · exact (h.add hready hroom hcompatible hnodup (hfair hnone).others m).of_same hsame

theorem keeps_step (h : Books node pool) (hsettled : Settled pool) (e : Event) :
    Settled (step node pool e) ∧ (Keeps node pool e ↔ Fair node pool e) := by
  cases e with
  | dsa m nVersion nDenom txCollateral =>
    have hjoined := joined_processDsa node m nVersion nDenom txCollateral pool
    exact ⟨hjoined.settled hsettled, fun _ => trivial, fun _ => ⟨h.joined hjoined, False.elim⟩⟩
  | dsi m nVersion msg =>
    have hin := handedIn node m nVersion msg hsettled
    refine ⟨hin.settled hsettled, fun hkeeps => ?_, fun hfair => ?_⟩
    · exact (hin.keeps_iff h).mp ⟨hkeeps.books, hkeeps.refused⟩
    · obtain ⟨hbooks, hrefused⟩ := (hin.keeps_iff h).mpr hfair
      exact ⟨hbooks, hrefused⟩
  | dss m nVersion sigs =>
    obtain ⟨hbooks, hsettled⟩ := h.dss hsettled m nVersion sigs
    exact ⟨hsettled, fun _ => trivial, fun _ => ⟨hbooks, False.elim⟩⟩
  | checkTimeout m =>
    have htimed := timedOut m pool
    exact ⟨htimed.settled hsettled, fun _ => trivial, fun _ => ⟨h.timedOut htimed, False.elim⟩⟩
  | checkForCompleteQueue m =>
    exact ⟨hsettled.checkForCompleteQueue node m, fun _ => trivial,
      fun _ => ⟨h.checkForCompleteQueue m, False.elim⟩⟩

/-- The books of a session are kept in exactly the runs in which the pool takes every entry that
comes to it. -/
theorem session_keeps_books (node : Node) (m : Moment) (es : List Event) : Books node (start m) ∧
      (Runs.Meets (step node) (Keeps node) (start m) es ↔
        Runs.Meets (step node) (Fair node) (start m) es) := by
  have hbooks : Books node (start m) := (vacant_setNull m {}).books node
  refine ⟨hbooks, Runs.meets_congr (I := fun pool => Books node pool ∧ Settled pool)
    (fun pool e hpool hfair => ?_) (fun pool e hpool => ?_) ⟨hbooks, settled_setNull m {}⟩⟩
  · obtain ⟨hsettled, hkeeps⟩ := keeps_step hpool.1 hpool.2 e
    exact ⟨(hkeeps.mpr hfair).books, hsettled⟩
  · exact (keeps_step hpool.1 hpool.2 e).2

end Runs

/-! Three users have joined a pool for three when a message with a negative amount comes in. -/

def sampleNode : Node where
  par := ⟨1000, Validation.mainMaxMoneyOut, 750, 20⟩
  nPoolMaxTransactions := 3
  nPoolMaxTransactions_pos := by decide
  hashes := Signing.sampleHashes
  sch := Signing.sampleScheme

def samplePayment : CScript := [0x76, 0xa9, 0x14] ++ List.replicate 20 0 ++ [0x88, 0xac]

def sampleOut (nValue : CAmount) : CTxOut where
  nValue := nValue
  scriptPubKey := samplePayment

def sampleKnown : CTransaction where
  hash := 5
  nVersion := 1
  vin := []
  vout := sampleOut (20 * coin) :: List.replicate 3 (sampleOut (coin + 1000))
  nLockTime := 0

def sampleMoment : Moment where
  nTime := 1600000000
  nTimeMillis := 1600000000000
  activeProtocol := 70000
  nLastDsq := some 0
  nDsqCount := 0
  countEnabled := 0
  getTransaction hash := if hash = 5 then some sampleKnown else none
  inputsAcceptable _ _ _ := true
  acceptToMemoryPool _ := true
  signsFinal := true
  rand := 0
  shuffleVin := ⟨id, fun _ => .refl _⟩
  shuffleVout := ⟨id, fun _ => .refl _⟩

def sampleCollateral : CTransaction where
  hash := 6
  nVersion := 1
  vin := [⟨⟨5, 0⟩, [], 0xffffffff⟩]
  vout := [sampleOut coin]
  nLockTime := 0

def sampleDsi (n : BitVec 32) (nAmount : CAmount) : Dsi :=
  ⟨[⟨⟨5, n⟩, [], 0xffffffff⟩], nAmount, sampleCollateral, [sampleOut (coin + 1000)]⟩

theorem session_loses_users : ¬ Runs.Meets (step sampleNode) (Keeps sampleNode)
    (start sampleMoment)
    (List.replicate 3 (.dsa sampleMoment 70000 16 sampleCollateral) ++
      [.dsi sampleMoment 70000 (sampleDsi 1 (-1))]) := by
  rintro ⟨-, -, -, hkeeps, -⟩
  have hcount := hkeeps.books.collaterals
  revert hcount
  with_unfolding_all decide

end Scrypta.Mixing
