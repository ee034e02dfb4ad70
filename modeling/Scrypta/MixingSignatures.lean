import Scrypta.MixingSession

/-! The signatures of a mixing session. A script that comes with `dss` is looked for among the
entries first; what is not there is not found by the check either, and counts as valid. -/

namespace Scrypta.Mixing

open SignatureHash (CMutableTransaction)
open Signing (SameButScripts spend)

/-- The inputs of the entries. -/
def inputs (entries : List CObfuScationEntry) : List CTxDSIn := entries.flatMap fun e => e.sev

/-- An input of the entries has the script already. -/
def Present (pool : CObfuscationPool) (item : CTxIn) : Prop :=
  ∃ s ∈ inputs pool.entries, s.scriptSig = item.scriptSig

instance (pool : CObfuscationPool) (item : CTxIn) : Decidable (Present pool item) :=
  inferInstanceAs (Decidable (∃ s ∈ inputs pool.entries, s.scriptSig = item.scriptSig))

section Check

variable {node : Node} {pool : CObfuscationPool} {item : CTxIn}

theorem present_iff : Present pool item ↔
    (pool.entries.any fun v => v.sev.any fun s => s.scriptSig == item.scriptSig) = true := by
  rw [← List.any_flatMap, List.any_eq_true]
  simp only [Present, inputs, beq_iff_eq]

/-- The check finds nothing. -/
theorem signatureValid_of_fresh (hfresh : ¬Present pool item) :
    signatureValid node item.scriptSig item pool = true := by
  unfold signatureValid
  extract_lets sev txNew found
  have hnone : found = none := by
    refine List.foldl_fixed' (fun i => ?_) _
    cases hs : sev[i]? with
    | none => rfl
    | some s =>
      refine if_neg fun heq => hfresh ⟨s, List.mem_of_getElem? hs, ?_⟩
      exact congrArg CTxIn.scriptSig heq
  rw [hnone]

theorem addScriptSig_present (h : Present pool item) :
    addScriptSig node item pool = (pool, false) := by
  rw [addScriptSig, if_pos (present_iff.mp h)]

theorem addScriptSig_fresh (hfresh : ¬Present pool item) :
    addScriptSig node item pool =
      ({ pool with
          finalTransaction := signFinal item pool.finalTransaction
          entries := (addSigs item pool.entries).getD pool.entries },
        (addSigs item pool.entries).isSome) := by
  rw [addScriptSig, if_neg fun h => hfresh (present_iff.mpr h), signatureValid_of_fresh hfresh]
  dsimp only
  cases addSigs item pool.entries with
  | none => rfl
  | some entries => rfl

end Check

/-! What a signature is written to. -/

section Write

variable {vin : CTxIn} {tx : CMutableTransaction}

theorem spend_eq {txin txin' : CTxIn} :
    spend txin = spend txin' ↔ txin.prevout = txin'.prevout ∧ txin.nSequence = txin'.nSequence :=
  Prod.mk.injEq _ _ _ _ ▸ Iff.rfl

/-- The inputs afterwards: they spend the same, and only those with the script are new. -/
structure Signs (vin : CTxIn) (sev sev' : List CTxDSIn) : Prop where
  named : ∃ s ∈ sev, spend s.toCTxIn = spend vin
  spends : (sev'.map fun s => spend s.toCTxIn) = sev.map fun s => spend s.toCTxIn
  old : ∀ s ∈ sev', s ∈ sev ∨ spend s.toCTxIn = spend vin ∧ s.scriptSig = vin.scriptSig

theorem signs_addSig {sev sev' : List CTxDSIn} (h : addSig vin sev = some sev') :
    Signs vin sev sev' := by
  induction sev generalizing sev' with
  | nil => exact nomatch h
  | cons s sev ih =>
    rw [addSig] at h
    split_ifs at h with hspend hsigned
    · cases h
      refine ⟨⟨s, List.mem_cons_self, spend_eq.mpr hspend⟩, rfl, fun s' hs' => ?_⟩
      rcases List.mem_cons.mp hs' with rfl | hs'
      · exact .inr ⟨spend_eq.mpr hspend, rfl⟩
      · exact .inl (List.mem_cons_of_mem _ hs')
    · obtain ⟨sev₁, hsev, rfl⟩ := Option.map_eq_some_iff.mp h
      obtain ⟨⟨s₁, hs₁, hnamed⟩, hspends, hold⟩ := ih hsev
      refine ⟨⟨s₁, List.mem_cons_of_mem _ hs₁, hnamed⟩, ?_, fun s' hs' => ?_⟩
      · rw [List.map_cons, List.map_cons, hspends]
      · rcases List.mem_cons.mp hs' with rfl | hs'
        · exact .inl List.mem_cons_self
        · exact (hold s' hs').imp_left (List.mem_cons_of_mem _)

theorem signs_addSigs {entries entries' : List CObfuScationEntry}
    (h : addSigs vin entries = some entries') : Signs vin (inputs entries) (inputs entries') := by
  induction entries generalizing entries' with
  | nil => exact nomatch h
  | cons e entries ih =>
    rw [addSigs] at h
    split at h
    · next sev hsev =>
      cases h
      obtain ⟨⟨s, hs, hnamed⟩, hspends, hold⟩ := signs_addSig hsev
      refine ⟨⟨s, List.mem_append_left _ hs, hnamed⟩, ?_, fun s' hs' => ?_⟩
      · simp only [inputs, List.flatMap_cons, List.map_append, hspends]
      · rcases List.mem_append.mp hs' with hs' | hs'
        · exact (hold s' hs').imp_left (List.mem_append_left _)
        · exact .inl (List.mem_append_right _ hs')
    · obtain ⟨entries₁, hentries, rfl⟩ := Option.map_eq_some_iff.mp h
      obtain ⟨⟨s, hs, hnamed⟩, hspends, hold⟩ := ih hentries
      refine ⟨⟨s, List.mem_append_right _ hs, hnamed⟩, ?_, fun s' hs' => ?_⟩
      · simp only [inputs, List.flatMap_cons, List.map_append] at hspends ⊢
        rw [hspends]
      · rcases List.mem_append.mp hs' with hs' | hs'
        · exact .inl (List.mem_append_left _ hs')
        · exact (hold s' hs').imp_left (List.mem_append_right _)

theorem getElem?_signFinal (n : ℕ) : (signFinal vin tx).vin[n]? = (tx.vin[n]?).map fun txin =>
    if spend txin = spend vin then { txin with scriptSig := vin.scriptSig } else txin := by
  rw [signFinal, List.getElem?_map]
  congr 1
  funext txin
  refine if_congr ?_ rfl rfl
  rw [spend_eq, eq_comm (a := vin.prevout)]

theorem sameButScripts_signFinal (vin : CTxIn) (tx : CMutableTransaction) :
    SameButScripts tx (signFinal vin tx) where
  nVersion := rfl
  vin := by
    refine List.ext_getElem? fun n => ?_
    rw [List.getElem?_map, List.getElem?_map, getElem?_signFinal]
    cases tx.vin[n]? with
    | none => rfl
    | some txin =>
      rw [Option.map_some, Option.map_some, Option.map_some]
      split_ifs <;> rfl
  vout := rfl
  nLockTime := rfl

theorem signFinal_unnamed (h : ∀ txin ∈ tx.vin, spend txin ≠ spend vin) :
    signFinal vin tx = tx := by
  have hvin : (signFinal vin tx).vin = tx.vin := by
    refine List.ext_getElem? fun n => ?_
    rw [getElem?_signFinal]
    cases htxin : tx.vin[n]? with
    | none => rfl
    | some txin => rw [Option.map_some, if_neg (h txin (List.mem_of_getElem? htxin))]
  exact congrArg (fun vin => (⟨tx.nVersion, vin, tx.vout, tx.nLockTime⟩ : CMutableTransaction)) hvin

theorem verifies_congr {tx' : CMutableTransaction} (h : SameButScripts tx tx') (node : Node)
    (scriptSig scriptPubKey : CScript) (n : ℕ) :
    verifies node scriptSig scriptPubKey tx' n = verifies node scriptSig scriptPubKey tx n := by
  rw [verifies, verifies, h.checkSig]

end Write

/-! What the signatures have to be. The script of an output is the one of its transaction, which
its hash determines. -/

section Spec

variable (node : Node) (scriptOf : COutPoint → CScript)

/-- The inputs of the transaction that spend what the item spends. -/
def places (tx : CMutableTransaction) (item : CTxIn) : List ℕ :=
  (List.range tx.vin.length).filter fun n => tx.vin[n]?.map spend == some (spend item)

/-- The script of the item signs the final transaction. -/
def Genuine (pool : CObfuscationPool) (item : CTxIn) : Prop :=
  places pool.finalTransaction item ≠ [] ∧
    ∀ n ∈ places pool.finalTransaction item,
      verifies node item.scriptSig (scriptOf item.prevout) pool.finalTransaction n = true

instance (pool : CObfuscationPool) (item : CTxIn) : Decidable (Genuine node scriptOf pool item) :=
  inferInstanceAs (Decidable (_ ∧ _))

/-- An input of the final transaction is signed. -/
def Verified (tx : CMutableTransaction) (n : ℕ) (txin : CTxIn) : Prop :=
  verifies node txin.scriptSig (scriptOf txin.prevout) tx n = true

/-- The signatures of the entries are good, and the final transaction is signed when they are all
there. -/
structure Sound (pool : CObfuscationPool) : Prop where
  entries : ∀ s ∈ inputs pool.entries, s.fHasSig = true → Genuine node scriptOf pool s.toCTxIn
  complete : signaturesComplete pool = true → ∀ n txin, pool.finalTransaction.vin[n]? = some txin →
    Verified node scriptOf pool.finalTransaction n txin

def addItem (pool : CObfuscationPool) (item : CTxIn) : CObfuscationPool :=
  (addScriptSig node item pool).1

/-- What `AddScriptSig` stores is good, and what is not good is not stored. -/
structure StoresGenuine (pool : CObfuscationPool) (item : CTxIn) : Prop where
  sound : Sound node scriptOf (addItem node pool item)
  stored : ∀ n txin, (addItem node pool item).finalTransaction.vin[n]? = some txin →
    pool.finalTransaction.vin[n]? ≠ some txin →
    Verified node scriptOf (addItem node pool item).finalTransaction n txin
  refused : ¬Genuine node scriptOf pool item → addScriptSig node item pool = (pool, false)

structure KeepsSigned (pool : CObfuscationPool) (e : Event) : Prop where
  sound : Sound node scriptOf (step node pool e)
  items : ∀ m nVersion sigs, e = .dss m nVersion sigs → m.activeProtocol ≤ nVersion →
    Runs.Meets (addItem node) (StoresGenuine node scriptOf) pool sigs

/-- An input of the entries or of the final transaction spends what the item spends. -/
def Named (pool : CObfuscationPool) (item : CTxIn) : Prop :=
  (∃ s ∈ inputs pool.entries, spend s.toCTxIn = spend item) ∨
    ∃ txin ∈ pool.finalTransaction.vin, spend txin = spend item

/-- A new script for an input signs the final transaction. -/
def HonestItem (pool : CObfuscationPool) (item : CTxIn) : Prop :=
  Named pool item → ¬Present pool item → Genuine node scriptOf pool item

/-- Signatures are good, and no new session starts while one is signed. -/
def Honest (pool : CObfuscationPool) : Event → Prop
  | .dsa .. => pool.sessionUsers ≤ 0 → pool.finalTransaction.vin = []
  | .dss m nVersion sigs =>
    m.activeProtocol ≤ nVersion → Runs.Meets (addItem node) (HonestItem node scriptOf) pool sigs
  | _ => True

instance (pool : CObfuscationPool) (item : CTxIn) : Decidable (Named pool item) :=
  inferInstanceAs (Decidable (_ ∨ _))

instance (pool : CObfuscationPool) (item : CTxIn) :
    Decidable (HonestItem node scriptOf pool item) :=
  inferInstanceAs (Decidable (_ → _))

instance (pool : CObfuscationPool) : ∀ e, Decidable (Honest node scriptOf pool e)
  | .dsa .. => inferInstanceAs (Decidable (_ → _))
  | .dsi .. => isTrue trivial
  | .dss .. => inferInstanceAs (Decidable (_ → _))
  | .checkTimeout _ => isTrue trivial
  | .checkForCompleteQueue _ => isTrue trivial

end Spec

/-! The phases. -/

section Phases

variable (node : Node) (scriptOf : COutPoint → CScript)

/-- There is no final transaction, and nothing is signed. -/
structure Unbuilt (pool : CObfuscationPool) : Prop where
  vin : pool.finalTransaction.vin = []
  unsigned : ∀ s ∈ inputs pool.entries, s.fHasSig = false

/-- The final transaction spends what the entries spend, and what is signed is signed well. -/
structure Built (pool : CObfuscationPool) : Prop where
  state : pool.state = .signing ∨ pool.state = .transmission
  full : node.nPoolMaxTransactions ≤ pool.entries.length
  spends : (pool.finalTransaction.vin.map spend).Perm
    ((inputs pool.entries).map fun s => spend s.toCTxIn)
  entries : ∀ s ∈ inputs pool.entries, s.fHasSig = true →
    ∀ n ∈ places pool.finalTransaction s.toCTxIn,
      verifies node s.scriptSig (scriptOf s.prevout) pool.finalTransaction n = true
  final : ∀ s ∈ inputs pool.entries, s.fHasSig = true →
    ∀ n txin, pool.finalTransaction.vin[n]? = some txin → spend txin = spend s.toCTxIn →
      Verified node scriptOf pool.finalTransaction n txin

structure Phases (pool : CObfuscationPool) : Prop where
  settled : Settled pool
  phase : Unbuilt pool ∨ Built node scriptOf pool

end Phases

section Steps

variable {node : Node} {scriptOf : COutPoint → CScript} {pool : CObfuscationPool}

theorem mem_places {tx : CMutableTransaction} {item : CTxIn} {n : ℕ} :
    n ∈ places tx item ↔ ∃ txin, tx.vin[n]? = some txin ∧ spend txin = spend item := by
  rw [places, List.mem_filter, List.mem_range, beq_iff_eq, Option.map_eq_some_iff]
  refine and_iff_right_of_imp fun h => ?_
  obtain ⟨txin, htxin, -⟩ := h
  exact (List.getElem?_eq_some_iff.mp htxin).1

theorem places_ne_nil {tx : CMutableTransaction} {item : CTxIn}
    (h : ∃ txin ∈ tx.vin, spend txin = spend item) : places tx item ≠ [] := by
  obtain ⟨txin, hmem, hspend⟩ := h
  obtain ⟨n, hn⟩ := List.mem_iff_getElem?.mp hmem
  exact List.ne_nil_of_mem (mem_places.mpr ⟨txin, hn, hspend⟩)

theorem places_congr {tx tx' : CMutableTransaction} (h : SameButScripts tx tx')
    (item : CTxIn) : places tx' item = places tx item := by
  have hlen : tx'.vin.length = tx.vin.length := by
    simpa only [List.length_map] using congrArg List.length h.vin
  unfold Mixing.places
  rw [hlen]
  refine List.filter_congr fun n _ => ?_
  rw [← List.getElem?_map, ← List.getElem?_map, h.vin]

theorem Built.named (h : Built node scriptOf pool) {s : CTxDSIn}
    (hs : s ∈ inputs pool.entries) :
    ∃ txin ∈ pool.finalTransaction.vin, spend txin = spend s.toCTxIn := by
  have hmem := h.spends.mem_iff.mpr (List.mem_map_of_mem (f := fun s => spend s.toCTxIn) hs)
  exact List.mem_map.mp hmem

theorem Built.sound (h : Built node scriptOf pool) : Sound node scriptOf pool := by
  refine ⟨fun s hs hsig => ⟨places_ne_nil (h.named hs), h.entries s hs hsig⟩,
    fun hcomplete n txin htxin => ?_⟩
  have hmem := h.spends.mem_iff.mp (List.mem_map_of_mem (f := spend) (List.mem_of_getElem? htxin))
  obtain ⟨s, hs, hspend⟩ := List.mem_map.mp hmem
  refine h.final s hs ?_ n txin htxin hspend.symm
  obtain ⟨e, he, hs⟩ := List.mem_flatMap.mp hs
  exact List.all_eq_true.mp (List.all_eq_true.mp hcomplete e he) s hs

theorem Unbuilt.sound (h : Unbuilt pool) : Sound node scriptOf pool := by
  refine ⟨fun s hs hsig => ?_, fun _ n txin htxin => ?_⟩
  · rw [h.unsigned s hs] at hsig
    exact nomatch hsig
  · rw [h.vin] at htxin
    exact nomatch htxin

theorem Phases.sound (h : Phases node scriptOf pool) : Sound node scriptOf pool :=
  h.phase.elim Unbuilt.sound Built.sound

/-! Items. -/

section Items

variable {item : CTxIn}

theorem inputs_addItem (node : Node) (hfresh : ¬Present pool item) :
    ((inputs (addItem node pool item).entries).map fun s => spend s.toCTxIn) =
        (inputs pool.entries).map (fun s => spend s.toCTxIn) ∧
      ∀ s ∈ inputs (addItem node pool item).entries, s ∈ inputs pool.entries ∨
        spend s.toCTxIn = spend item ∧ s.scriptSig = item.scriptSig := by
  rw [addItem, addScriptSig_fresh hfresh]
  dsimp only
  cases hadd : addSigs item pool.entries with
  | none => exact ⟨rfl, fun s hs => .inl hs⟩
  | some entries =>
    obtain ⟨-, hspends, hold⟩ := signs_addSigs hadd
    exact ⟨hspends, hold⟩

theorem finalTransaction_addItem (hfresh : ¬Present pool item) :
    (addItem node pool item).finalTransaction = signFinal item pool.finalTransaction := by
  rw [addItem, addScriptSig_fresh hfresh]

/-- An input of the final transaction afterwards: signed by the item, or as it was. -/
theorem verified_signFinal (hitem : Genuine node scriptOf pool item) {n : ℕ} {txin : CTxIn}
    (h : (signFinal item pool.finalTransaction).vin[n]? = some txin) :
    Verified node scriptOf (signFinal item pool.finalTransaction) n txin ∨
      spend txin ≠ spend item ∧ pool.finalTransaction.vin[n]? = some txin := by
  rw [getElem?_signFinal, Option.map_eq_some_iff] at h
  obtain ⟨old, hold, rfl⟩ := h
  split_ifs with hspend
  · left
    rw [Verified, verifies_congr (sameButScripts_signFinal item pool.finalTransaction)]
    have hverifies := hitem.2 n (mem_places.mpr ⟨old, hold, hspend⟩)
    rw [← (spend_eq.mp hspend).1] at hverifies
    exact hverifies
  · exact .inr ⟨hspend, hold⟩

theorem Built.addItem (h : Built node scriptOf pool) (hitem : Genuine node scriptOf pool item)
    (hfresh : ¬Present pool item) : Built node scriptOf (addItem node pool item) := by
  obtain ⟨hspends, hold⟩ := inputs_addItem node hfresh
  obtain ⟨hsame, hstate⟩ := addScriptSig_same node item pool
  have hscripts := sameButScripts_signFinal item pool.finalTransaction
  refine ⟨?_, ?_, ?_, fun s hs hsig n hn => ?_, fun s hs hsig n txin htxin hspend => ?_⟩
  · rw [Mixing.addItem, hstate]
    exact h.state
  · rw [Mixing.addItem, hsame.length]
    exact h.full
  · rw [hspends, finalTransaction_addItem hfresh, hscripts.vin]
    exact h.spends
  · rw [finalTransaction_addItem hfresh] at hn ⊢
    rw [places_congr hscripts] at hn
    rw [verifies_congr hscripts]
    rcases hold s hs with hs | ⟨hnamed, hscript⟩
    · exact h.entries s hs hsig n hn
    · obtain ⟨txin, htxin, hspend⟩ := mem_places.mp hn
      rw [hscript, (spend_eq.mp hnamed).1]
      exact hitem.2 n (mem_places.mpr ⟨txin, htxin, hspend.trans hnamed⟩)
  · rw [finalTransaction_addItem hfresh] at htxin ⊢
    rcases verified_signFinal hitem htxin with hverified | ⟨hother, htxin⟩
    · exact hverified
    · rcases hold s hs with hs | ⟨hnamed, -⟩
      · rw [Verified, verifies_congr hscripts]
        exact h.final s hs hsig n txin htxin hspend
      · exact absurd (hspend.trans hnamed) hother

theorem addScriptSig_unnamed (hfresh : ¬Present pool item) (hunnamed : ¬Named pool item) :
    addScriptSig node item pool = (pool, false) := by
  obtain ⟨hentries, hfinal⟩ := not_or.mp hunnamed
  have hnone : addSigs item pool.entries = none := by
    rw [Option.eq_none_iff_forall_ne_some]
    intro entries hadd
    exact hentries (signs_addSigs hadd).named
  have hsame := signFinal_unnamed fun txin htxin hspend => hfinal ⟨txin, htxin, hspend⟩
  rw [addScriptSig_fresh hfresh, hnone, hsame]
  rfl

theorem Phases.addItem (h : Phases node scriptOf pool)
    (hitem : HonestItem node scriptOf pool item) :
    Phases node scriptOf (addItem node pool item) ∧ StoresGenuine node scriptOf pool item := by
  by_cases hkept : addScriptSig node item pool = (pool, false)
  · have hpool : Mixing.addItem node pool item = pool := congrArg Prod.fst hkept
    rw [hpool]
    refine ⟨h, ⟨?_, ?_, fun _ => hkept⟩⟩
    · rw [hpool]
      exact h.sound
    · rw [hpool]
      exact fun n txin hnew hold => absurd hnew hold
  · have hfresh : ¬Present pool item := fun hpresent => hkept (addScriptSig_present hpresent)
    have hnamed : Named pool item := by
      by_contra hunnamed
      exact hkept (addScriptSig_unnamed hfresh hunnamed)
    have hgenuine := hitem hnamed hfresh
    obtain ⟨-, hstate⟩ := addScriptSig_same node item pool
    have hbuilt : Built node scriptOf pool := by
      rcases h.phase with hunbuilt | hbuilt
      · refine absurd ?_ hgenuine.1
        rw [places, hunbuilt.vin]
        rfl
      · exact hbuilt
    have hafter : Phases node scriptOf (Mixing.addItem node pool item) := by
      refine ⟨?_, .inr (hbuilt.addItem hgenuine hfresh)⟩
      rw [Settled, Mixing.addItem, hstate]
      exact h.settled
    refine ⟨hafter, hafter.sound, fun n txin hnew hold => ?_, absurd hgenuine⟩
    rw [finalTransaction_addItem hfresh] at hnew ⊢
    rcases verified_signFinal hgenuine hnew with hverified | ⟨-, hsame⟩
    · exact hverified
    · exact absurd hsame hold

theorem addScriptSigs_eq (sigs : List CTxIn) (pool : CObfuscationPool) :
    (addScriptSigs node sigs pool).1 = Runs.run (addItem node) pool sigs := by
  induction sigs generalizing pool with
  | nil => rfl
  | cons item sigs ih =>
    rw [Runs.run_cons, ← ih]
    rfl

theorem Phases.addItems {sigs : List CTxIn} (h : Phases node scriptOf pool)
    (hsigs : Runs.Meets (Mixing.addItem node) (HonestItem node scriptOf) pool sigs) :
    Phases node scriptOf (addScriptSigs node sigs pool).1 ∧
      Runs.Meets (Mixing.addItem node) (StoresGenuine node scriptOf) pool sigs := by
  rw [addScriptSigs_eq]
  exact ⟨Runs.run_invariant (fun _ _ h hitem => (h.addItem hitem).1) h hsigs,
    hsigs.of_invariant (fun _ _ h hitem => (h.addItem hitem).1)
      (fun _ _ h hitem => (h.addItem hitem).2) h⟩

end Items

/-! The other events. -/

theorem inputs_append (entries : List CObfuScationEntry) (e : CObfuScationEntry) :
    inputs (entries ++ [e]) = inputs entries ++ e.sev := by
  rw [inputs, List.flatMap_append, List.flatMap_singleton]
  rfl

theorem unbuilt_setNull (m : Moment) (pool : CObfuscationPool) : Unbuilt (pool.setNull m) :=
  ⟨rfl, fun _ hs => nomatch hs⟩

theorem Unbuilt.updateState (h : Unbuilt pool) (m : Moment) (newState : PoolStatus) :
    Unbuilt (pool.updateState m newState) := by
  refine ⟨?_, ?_⟩
  · rw [finalTransaction_updateState]
    exact h.vin
  · rw [entries_updateState]
    exact h.unsigned

theorem Built.updateState (h : Built node scriptOf pool) (m : Moment) :
    Built node scriptOf (pool.updateState m .transmission) := by
  refine ⟨.inr rfl, ?_, ?_, ?_, ?_⟩
  · rw [entries_updateState]
    exact h.full
  · rw [entries_updateState, finalTransaction_updateState]
    exact h.spends
  · rw [entries_updateState, finalTransaction_updateState]
    exact h.entries
  · rw [entries_updateState, finalTransaction_updateState]
    exact h.final

theorem built_assembled (h : Unbuilt pool)
    (hfull : node.nPoolMaxTransactions ≤ pool.entries.length) (m : Moment) :
    Built node scriptOf (assembled m pool) := by
  have hunsigned (s : CTxDSIn) (hs : s ∈ inputs pool.entries) : ¬s.fHasSig = true := by
    rw [h.unsigned s hs]
    decide
  refine ⟨.inl rfl, hfull, ?_, fun s hs hsig => absurd hsig (hunsigned s hs),
    fun s hs hsig => absurd hsig (hunsigned s hs)⟩
  have hperm := (m.shuffleVin.perm
    (pool.entries.flatMap fun v => v.sev.map fun s => s.toCTxIn)).map spend
  rw [List.map_flatMap] at hperm
  change ((m.shuffleVin.shuffle _).map spend).Perm ((inputs pool.entries).map _)
  rw [inputs, List.map_flatMap]
  simpa only [List.map_map, Function.comp_def] using hperm

theorem Phases.unbuilt (h : Phases node scriptOf pool)
    (hstate : ¬(pool.state = .signing ∨ pool.state = .transmission)) : Unbuilt pool :=
  h.phase.resolve_right fun hbuilt => hstate hbuilt.state

theorem Phases.unbuilt_of_waits (h : Phases node scriptOf pool)
    (hwaits : pool.state = .acceptingEntries ∨ pool.state = .queue) : Unbuilt pool := by
  refine h.unbuilt ?_
  rcases hwaits with hstate | hstate <;> rw [hstate] <;> decide

theorem Phases.unbuilt_of_vin (h : Phases node scriptOf pool)
    (hvin : pool.finalTransaction.vin = []) : Unbuilt pool := by
  refine h.phase.elim id fun hbuilt => ⟨hvin, fun s hs => ?_⟩
  obtain ⟨txin, hmem, -⟩ := hbuilt.named hs
  rw [hvin] at hmem
  exact absurd hmem List.not_mem_nil

theorem Phases.checked {q : CObfuscationPool} (h : Phases node scriptOf pool)
    (hchecked : Checked node m pool q) : Phases node scriptOf q := by
  refine ⟨hchecked.settled h.settled, ?_⟩
  induction hchecked with
  | stays => exact h.phase
  | assembles hstate hfull =>
    exact .inr (built_assembled (h.unbuilt_of_waits (.inl hstate)) hfull m)
  | transmits _ _ ih => exact ih.imp (·.updateState m _) (·.updateState m)
  | resets q => exact .inl (unbuilt_setNull m q)
  | refuses q => exact .inl ((unbuilt_setNull m q).updateState m _)

theorem Phases.joined {nDenom : ℤ} {txCollateral : CTransaction} {q : CObfuscationPool}
    (h : Phases node scriptOf pool)
    (hhonest : pool.sessionUsers ≤ 0 → pool.finalTransaction.vin = [])
    (hjoined : Joined node m nDenom txCollateral pool q) : Phases node scriptOf q := by
  refine ⟨hjoined.settled h.settled, ?_⟩
  cases hjoined with
  | stays => exact h.phase
  | starts hnone =>
    have hunbuilt := h.unbuilt_of_vin (hhonest hnone)
    exact .inl ⟨hunbuilt.vin, hunbuilt.unsigned⟩
  | joins _ _ hwaits =>
    have hunbuilt := h.unbuilt_of_waits hwaits
    exact .inl ⟨hunbuilt.vin, hunbuilt.unsigned⟩

theorem Phases.handedIn {nVersion : ℤ} {msg : Dsi} {q : CObfuscationPool} {accepted : Bool}
    (h : Phases node scriptOf pool) (hin : HandedIn node m nVersion msg pool q accepted) :
    Phases node scriptOf q := by
  cases hin with
  | refuses => exact h
  | drops =>
    exact ⟨h.settled, h.phase.imp (fun h => ⟨h.vin, h.unsigned⟩)
      fun h => ⟨h.state, h.full, h.spends, h.entries, h.final⟩⟩
  | adds _ hadded hchecked =>
    obtain ⟨-, -, hroom, -⟩ := addEntry_accepts.mp hadded
    have hunbuilt : Unbuilt pool :=
      h.phase.resolve_right fun hbuilt => absurd hroom (not_lt.mpr hbuilt.full)
    have hadd : Phases node scriptOf { pool with entries := pool.entries ++ [msg.entry m] } := by
      refine ⟨h.settled, .inl ⟨hunbuilt.vin, fun s hs => ?_⟩⟩
      rw [inputs_append] at hs
      rcases List.mem_append.mp hs with hs | hs
      · exact hunbuilt.unsigned s hs
      · obtain ⟨txin, -, rfl⟩ := List.mem_map.mp hs
        rfl
    exact hadd.checked hchecked

theorem Phases.dss {sigs : List CTxIn} (h : Phases node scriptOf pool)
    (hsigs : Runs.Meets (Mixing.addItem node) (HonestItem node scriptOf) pool sigs) (m : Moment)
    (nVersion : ℤ) : Phases node scriptOf (processDss node m nVersion sigs pool) := by
  unfold processDss
  split
  · exact h
  obtain ⟨hphases, -⟩ := h.addItems hsigs
  dsimp only
  split
  · exact hphases.checked (Mixing.checked node m hphases.settled)
  · exact hphases

theorem Phases.timedOut {q : CObfuscationPool} (h : Phases node scriptOf pool)
    (htimed : TimedOut m pool q) : Phases node scriptOf q := by
  refine ⟨htimed.settled h.settled, ?_⟩
  cases htimed with
  | stays => exact h.phase
  | expires hwaits =>
    have hunbuilt := h.unbuilt_of_waits hwaits
    refine .inl ⟨hunbuilt.vin, fun s hs => ?_⟩
    obtain ⟨e, he, hs⟩ := List.mem_flatMap.mp hs
    exact hunbuilt.unsigned s (List.mem_flatMap.mpr ⟨e, List.mem_of_mem_filter he, hs⟩)
  | resets q => exact .inl (unbuilt_setNull m q)

theorem Phases.checkForCompleteQueue (h : Phases node scriptOf pool) (m : Moment) :
    Phases node scriptOf (checkForCompleteQueue node m pool) := by
  refine ⟨h.settled.checkForCompleteQueue node m, ?_⟩
  unfold Mixing.checkForCompleteQueue
  split_ifs with hqueue
  · exact .inl ((h.unbuilt_of_waits (.inr hqueue.1)).updateState m _)
  · exact h.phase

end Steps

/-! Runs. -/

theorem keepsSigned_step {node : Node} {scriptOf : COutPoint → CScript} {pool : CObfuscationPool}
    {e : Event} (h : Phases node scriptOf pool) (he : Honest node scriptOf pool e) :
    Phases node scriptOf (step node pool e) ∧ KeepsSigned node scriptOf pool e := by
  cases e with
  | dsa m nVersion nDenom txCollateral =>
    have hafter := h.joined he (joined_processDsa node m nVersion nDenom txCollateral pool)
    exact ⟨hafter, hafter.sound, fun _ _ _ heq => Event.noConfusion heq⟩
  | dsi m nVersion msg =>
    have hafter := h.handedIn (handedIn node m nVersion msg h.settled)
    exact ⟨hafter, hafter.sound, fun _ _ _ heq => Event.noConfusion heq⟩
  | dss m nVersion sigs =>
    by_cases hversion : m.activeProtocol ≤ nVersion
    · have hafter := h.dss (he hversion) m nVersion
      refine ⟨hafter, hafter.sound, fun m nVersion sigs heq _ => ?_⟩
      cases heq
      exact (h.addItems (he hversion)).2
    · have hstep : step node pool (.dss m nVersion sigs) = pool := if_pos (not_le.mp hversion)
      rw [hstep]
      refine ⟨h, ?_, fun m nVersion sigs heq hle => ?_⟩
      · rw [hstep]
        exact h.sound
      · cases heq
        exact absurd hle hversion
  | checkTimeout m =>
    have hafter := h.timedOut (timedOut m pool)
    exact ⟨hafter, hafter.sound, fun _ _ _ heq => Event.noConfusion heq⟩
  | checkForCompleteQueue m =>
    have hafter := h.checkForCompleteQueue m
    exact ⟨hafter, hafter.sound, fun _ _ _ heq => Event.noConfusion heq⟩

theorem signatures_kept (node : Node) (scriptOf : COutPoint → CScript) (m : Moment)
    {es : List Event} (h : Runs.Meets (step node) (Honest node scriptOf) (start m) es) :
    Sound node scriptOf (start m) ∧
      Runs.Meets (step node) (KeepsSigned node scriptOf) (start m) es := by
  have hstart : Phases node scriptOf (start m) :=
    ⟨settled_setNull m {}, .inl (unbuilt_setNull m {})⟩
  exact ⟨hstart.sound, h.of_invariant (fun _ _ h he => (keepsSigned_step h he).1)
    (fun _ _ h he => (keepsSigned_step h he).2) hstart⟩

/-! Three users hand in an output each, and sign. -/

def sampleSession : List Event :=
  List.replicate 3 (.dsa sampleMoment 70000 16 sampleCollateral) ++
    [.checkForCompleteQueue sampleMoment] ++
    [1, 2, 3].map fun n => .dsi sampleMoment 70000 (sampleDsi n (coin + 1000))

def sampleSigned (n : BitVec 32) (nHashType : UInt8) : CTxIn where
  prevout := ⟨5, n⟩
  scriptSig := ScriptNum.pushData (Signing.sampleSignature ++ [nHashType]) ++
    ScriptNum.pushData Signing.samplePubKey.vch
  nSequence := 0xffffffff

theorem signatures_kept_sample :
    Sound sampleNode (fun _ => samplePayment) (start sampleMoment) ∧
      Runs.Meets (step sampleNode) (KeepsSigned sampleNode fun _ => samplePayment)
        (start sampleMoment)
        (sampleSession ++ [.dss sampleMoment 70000 [sampleSigned 1 1, sampleSigned 2 2]]) :=
  signatures_kept sampleNode (fun _ => samplePayment) sampleMoment (by with_unfolding_all decide)

/-- A script that only pushes a number is stored for the first input. -/
theorem signatures_forged : ¬ Runs.Meets (step sampleNode)
    (KeepsSigned sampleNode fun _ => samplePayment) (start sampleMoment)
    (sampleSession ++ [.dss sampleMoment 70000 [⟨⟨5, 1⟩, [0x51], 0xffffffff⟩]]) := by
  rw [Runs.meets_append]
  rintro ⟨-, hforged, -⟩
  have hitem := (hforged.items _ _ _ rfl (by decide)).1.refused (by with_unfolding_all decide)
  have hadded := congrArg Prod.snd hitem
  revert hadded
  with_unfolding_all decide

end Scrypta.Mixing
