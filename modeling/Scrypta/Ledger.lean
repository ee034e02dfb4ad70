import Scrypta.Coins
import Scrypta.Toolkit.Slots

/-! What a view of the coins holds: for each transaction its unspent outputs and what else is
known of it. The transactions of a block spend outputs of the view or of each other. -/

namespace Scrypta

open Slots

namespace CCoins

/-- The unspent output at a place. -/
def output (c : CCoins) (n : ℕ) : Option CTxOut := held CTxOut.isNull c.vout n

/-- What is known besides the outputs. -/
def bare (c : CCoins) : CCoins := { c with vout := [] }

def Tidy (c : CCoins) : Prop := Slots.Tidy CTxOut.isNull CTxOut.null c.vout

variable {c d : CCoins} {n : ℕ} {undo : CTxInUndo}

theorem isNull_null : CTxOut.isNull CTxOut.null = true := rfl

theorem isAvailable_eq (c : CCoins) (n : ℕ) : c.isAvailable n = (c.output n).isSome := by
  rw [isAvailable, output, held]
  cases c.vout[n]? with
  | none => rfl
  | some txout => cases h : txout.isNull <;> simp [Option.filter, h]

theorem isPruned_iff : c.isPruned = true ↔ ∀ n, c.output n = none := all_isNull_iff

theorem isPruned_eq_false_iff : c.isPruned = false ↔ ∃ n o, c.output n = some o := by
  rw [← Bool.not_eq_true, isPruned_iff]
  simp only [not_forall, ← Option.ne_none_iff_exists']

theorem isPruned_congr (h : ∀ n, c.output n = d.output n) : c.isPruned = d.isPruned := by
  rw [Bool.eq_iff_iff, isPruned_iff, isPruned_iff]
  simp only [h]

@[simp] theorem output_cleanup (c : CCoins) (n : ℕ) : c.cleanup.output n = c.output n :=
  held_rdropWhile c.vout n

@[simp] theorem bare_cleanup (c : CCoins) : c.cleanup.bare = c.bare := rfl

@[simp] theorem isPruned_cleanup (c : CCoins) : c.cleanup.isPruned = c.isPruned :=
  isPruned_congr (output_cleanup c)

theorem Tidy.cleanup (h : c.Tidy) : c.cleanup = c := by
  rw [CCoins.cleanup, h.trimmed]

/-- Tidy coins are known by what they hold. -/
theorem Tidy.ext (hc : c.Tidy) (hd : d.Tidy) (hbare : c.bare = d.bare)
    (h : ∀ n, c.output n = d.output n) : c = d := by
  have hvout : c.vout = d.vout := Slots.Tidy.ext hc hd h
  obtain ⟨_, _, _, _, _⟩ := c
  obtain ⟨_, _, _, _, _⟩ := d
  cases hbare
  cases hvout
  rfl

theorem tidy_fromTx {tx : CTransaction} (h : ∀ o ∈ tx.vout, o.isNull = true → o = CTxOut.null)
    (nHeight : ℤ) : (fromTx tx nHeight).Tidy := by
  refine Slots.Tidy.rdropWhile fun a ha hnull => ?_
  obtain ⟨o, ho, rfl⟩ := List.mem_map.mp ha
  split
  · rfl
  · next hspendable =>
    rw [if_neg hspendable] at hnull
    exact h o ho hnull

/-- Coins whose unspent outputs are those of `c` without one of them. -/
theorem spend_spec {c' : CCoins} (h : c.spend n = some (c', undo)) :
    c.output n = some undo.txout ∧ (∀ m, c'.output m = if m = n then none else c.output m) ∧
      c'.bare = c.bare ∧ (c.Tidy → c'.Tidy) ∧
      undo = if c'.isPruned then
          ⟨undo.txout, c.fCoinBase, c.fCoinStake, toUInt32 c.nHeight, c.nVersion⟩
        else ⟨undo.txout, false, false, 0, 0⟩ := by
  unfold spend at h
  split at h
  · cases h
  next txout hget =>
  split at h
  · cases h
  next hnull =>
  have hout : c.output n = some txout := held_eq_some.mpr ⟨hget, by simpa using hnull⟩
  have hrest : ∀ m, (cleanup { c with vout := c.vout.set n CTxOut.null }).output m =
      if m = n then none else c.output m := fun m => by
    rw [output_cleanup]
    exact held_set_null isNull_null c.vout n m
  have hempty : (cleanup { c with vout := c.vout.set n CTxOut.null }).vout.isEmpty =
      (cleanup { c with vout := c.vout.set n CTxOut.null }).isPruned := by
    rw [isPruned_cleanup, Bool.eq_iff_iff, List.isEmpty_iff]
    exact List.rdropWhile_eq_nil_iff.trans List.all_eq_true.symm
  have htidy : c.Tidy → (cleanup { c with vout := c.vout.set n CTxOut.null }).Tidy := by
    intro hc
    refine Slots.Tidy.rdropWhile fun a ha hnull => ?_
    rcases List.mem_or_eq_of_mem_set ha with ha | rfl
    · exact hc.canonical a ha hnull
    · rfl
  simp only at h
  rw [hempty] at h
  split at h <;> obtain ⟨rfl, rfl⟩ := Prod.mk.inj (Option.some.inj h)
  · next hpruned => exact ⟨hout, hrest, rfl, htidy, (if_pos hpruned).symm⟩
  · next hpruned => exact ⟨hout, hrest, rfl, htidy, (if_neg hpruned).symm⟩

theorem spend_isSome {o : CTxOut} (h : c.output n = some o) : ∃ r, c.spend n = some r := by
  obtain ⟨hget, hnull⟩ := held_eq_some.mp h
  rw [spend, hget]
  simp only [hnull, Bool.false_eq_true, if_false]
  split <;> exact ⟨_, rfl⟩

end CCoins

namespace CCoinsViewCache

variable {view : CCoinsViewCache}

/-- The unspent output of a transaction at a place. -/
def output (view : CCoinsViewCache) (txid : Uint256) (n : ℕ) : Option CTxOut :=
  (view.coinsFor txid).output n

theorem unspent_eq (view : CCoinsViewCache) (txid : Uint256) :
    view.unspent txid =
      if (view.coinsFor txid).isPruned then none else some (view.coinsFor txid) := by
  rw [unspent, coinsFor]
  cases view.accessCoins txid with
  | none => rfl
  | some c => cases h : c.isPruned <;> simp [Option.filter, h]

theorem unspent_eq_some {txid : Uint256} {c : CCoins} :
    view.unspent txid = some c ↔ view.coinsFor txid = c ∧ c.isPruned = false := by
  rw [unspent_eq]
  split
  · next h =>
    constructor
    · exact nofun
    · intro hc
      rw [hc.1, hc.2] at h
      cases h
  · next h =>
    constructor
    · intro hc
      obtain rfl := Option.some.inj hc
      exact ⟨rfl, by simpa using h⟩
    · intro hc
      rw [hc.1]

theorem unspent_eq_none {txid : Uint256} :
    view.unspent txid = none ↔ ∀ n, view.output txid n = none := by
  rw [unspent_eq]
  split
  · next h => exact ⟨fun _ => CCoins.isPruned_iff.mp h, fun _ => rfl⟩
  · next h => exact ⟨nofun, fun hall => absurd (CCoins.isPruned_iff.mpr hall) h⟩

theorem output_eq (view : CCoinsViewCache) (txid : Uint256) (n : ℕ) :
    view.output txid n = (view.unspent txid).bind fun c => c.output n := by
  rw [unspent_eq]
  split
  · next h => exact CCoins.isPruned_iff.mp h n
  · rfl

theorem haveInput_eq (view : CCoinsViewCache) (o : COutPoint) :
    view.haveInput o = (view.output o.hash o.n.toNat).isSome := by
  rw [haveInput, output, coinsFor]
  cases view.accessCoins o.hash with
  | none => rfl
  | some c => exact CCoins.isAvailable_eq c _

theorem unspent_putCoins (view : CCoinsViewCache) (txid : Uint256) (c : CCoins) (txid' : Uint256) :
    (view.putCoins txid c).unspent txid' =
      if txid' = txid then (if c.isPruned then none else some c.cleanup)
      else view.unspent txid' := by
  rw [unspent_eq, coinsFor_putCoins]
  split
  · rw [CCoins.isPruned_cleanup]
  · exact (unspent_eq view txid').symm

theorem output_putCoins (view : CCoinsViewCache) (txid : Uint256) (c : CCoins) (txid' : Uint256)
    (n : ℕ) : (view.putCoins txid c).output txid' n =
      if txid' = txid then c.output n else view.output txid' n := by
  rw [output, coinsFor_putCoins]
  split
  · exact CCoins.output_cleanup c n
  · rfl

@[simp] theorem unspent_setBestBlock (view : CCoinsViewCache) (hashBlock : Uint256)
    (txid : Uint256) : (view.setBestBlock hashBlock).unspent txid = view.unspent txid := rfl

/-- Nulls are of one kind in everything that is unspent. -/
def Tidy (view : CCoinsViewCache) : Prop := ∀ txid c, view.unspent txid = some c → c.Tidy

end CCoinsViewCache

/-- The outputs that transactions spend. -/
def spentBy (vtx : List CTransaction) : List COutPoint :=
  vtx.flatMap fun tx => if tx.isCoinBase then [] else tx.prevouts

/-- The place of a transaction is named. -/
def COutPoint.Names (o : COutPoint) (txid : Uint256) (n : ℕ) : Prop :=
  o.hash = txid ∧ o.n.toNat = n

instance (o : COutPoint) (txid : Uint256) (n : ℕ) : Decidable (o.Names txid n) :=
  inferInstanceAs (Decidable (_ ∧ _))

namespace CCoinsViewCache

variable {view view' view₁ view₂ : CCoinsViewCache} {nHeight : ℤ}

/-- What spending some outputs makes of a view. -/
structure Spends (view : CCoinsViewCache) (os : List COutPoint) (view' : CCoinsViewCache) :
    Prop where
  had : ∀ o ∈ os, view.output o.hash o.n.toNat ≠ none
  output : ∀ txid n, view'.output txid n =
    if ∃ o ∈ os, o.Names txid n then none else view.output txid n
  bare : ∀ txid c, view'.unspent txid = some c →
    ∃ e, view.unspent txid = some e ∧ c.bare = e.bare
  tidy : view.Tidy → view'.Tidy
  hashBlock : view'.hashBlock = view.hashBlock

theorem Spends.none {os : List COutPoint} (h : Spends view os view') {txid : Uint256}
    (hnone : view.unspent txid = none) : view'.unspent txid = none := by
  rw [unspent_eq_none] at hnone ⊢
  intro n
  rw [h.output, hnone]
  split <;> rfl

/-- One output is spent. -/
theorem spends_one {o : COutPoint} {c' : CCoins} {undo : CTxInUndo}
    (h : (view.coinsFor o.hash).spend o.n.toNat = some (c', undo)) :
    Spends view [o] (view.putCoins o.hash c') := by
  obtain ⟨hhad, hrest, hbare, htidy, -⟩ := CCoins.spend_spec h
  have hmem : ∀ txid n, (∃ o' ∈ [o], o'.Names txid n) ↔ o.hash = txid ∧ o.n.toNat = n := by
    intro txid n
    simp [COutPoint.Names]
  have hold : view.unspent o.hash = some (view.coinsFor o.hash) :=
    unspent_eq_some.mpr ⟨rfl, CCoins.isPruned_eq_false_iff.mpr ⟨_, _, hhad⟩⟩
  refine ⟨fun o' ho' => ?_, fun txid n => ?_, fun txid c hc => ?_, fun htidyv txid c hc => ?_, rfl⟩
  · obtain rfl := List.mem_singleton.mp ho'
    rw [output, hhad]
    exact Option.some_ne_none _
  · simp only [hmem, output_putCoins]
    by_cases htxid : txid = o.hash
    · subst htxid
      simp only [if_true, hrest, true_and, eq_comm]
      rfl
    · rw [if_neg htxid, if_neg fun hn => htxid hn.1.symm]
  · rw [unspent_putCoins] at hc
    split at hc
    · next htxid =>
      split at hc
      · cases hc
      · obtain rfl := Option.some.inj hc
        exact ⟨_, htxid ▸ hold, hbare⟩
    · exact ⟨c, hc, rfl⟩
  · rw [unspent_putCoins] at hc
    split at hc
    · split at hc
      · cases hc
      · obtain rfl := Option.some.inj hc
        have hc' := htidy (htidyv _ _ hold)
        rw [hc'.cleanup]
        exact hc'
    · exact htidyv _ _ hc

theorem Spends.trans {os os' : List COutPoint} (h : Spends view os view₁)
    (h' : Spends view₁ os' view₂) : Spends view (os ++ os') view₂ := by
  refine ⟨fun o ho => ?_, fun txid n => ?_, fun txid c hc => ?_, fun ht => h'.tidy (h.tidy ht),
    h'.hashBlock.trans h.hashBlock⟩
  · rcases List.mem_append.mp ho with ho | ho
    · exact h.had o ho
    · intro hnone
      refine h'.had o ho ?_
      rw [h.output, hnone]
      split <;> rfl
  · rw [h'.output, h.output]
    simp only [List.mem_append, or_and_right, exists_or]
    by_cases hleft : ∃ o ∈ os, o.Names txid n
    · simp only [hleft, if_true, true_or]
      split <;> rfl
    · simp only [hleft, if_false, false_or]
  · obtain ⟨c₁, hc₁, hbare₁⟩ := h'.bare txid c hc
    obtain ⟨e, he, hbare⟩ := h.bare txid c₁ hc₁
    exact ⟨e, he, hbare₁.trans hbare⟩

theorem spends_spendInputs {vin : List CTxIn} {undos : List CTxInUndo}
    (h : view.spendInputs vin = some (view', undos)) :
    Spends view (vin.map CTxIn.prevout) view' := by
  induction vin generalizing view undos with
  | nil =>
    cases h
    exact ⟨nofun, fun _ _ => by simp, fun _ c hc => ⟨c, hc, rfl⟩, id, rfl⟩
  | cons txin vin ih =>
    simp only [spendInputs] at h
    split at h
    · cases h
    next c' undo hone =>
    split at h
    · cases h
    next view₂ undos' hrest =>
    obtain ⟨rfl, rfl⟩ := Prod.mk.inj (Option.some.inj h)
    exact (spends_one hone).trans (ih hrest)

/-- An update spends the inputs and then creates the outputs. -/
theorem updateCoins_spec {tx : CTransaction} {undo : CTxUndo}
    (h : view.updateCoins tx nHeight = some (view', undo)) :
    ∃ view₁, Spends view (spentBy [tx]) view₁ ∧ view' = view₁.addOutputs tx nHeight := by
  unfold updateCoins at h
  have hspent : spentBy [tx] = if tx.isCoinBase then [] else tx.prevouts := List.append_nil _
  split at h
  · next hcb =>
    obtain ⟨rfl, -⟩ := Prod.mk.inj (Option.some.inj h)
    rw [hspent, if_pos hcb]
    exact ⟨view, @spends_spendInputs _ _ [] _ rfl, rfl⟩
  · next hcb =>
    split at h
    · cases h
    next view₁ undos hspend =>
    obtain ⟨rfl, -⟩ := Prod.mk.inj (Option.some.inj h)
    rw [hspent, if_neg hcb]
    exact ⟨view₁, spends_spendInputs hspend, rfl⟩

/-- The coins of a transaction before any of them are spent: those that the block creates, else
those of the view. -/
def origin (view : CCoinsViewCache) (nHeight : ℤ) (vtx : List CTransaction) (txid : Uint256) :
    Option CCoins :=
  match vtx.find? fun tx => tx.hash = txid with
  | some tx => some (CCoins.fromTx tx nHeight)
  | none => view.unspent txid

theorem origin_append_of_some {vtx vtx' : List CTransaction} {txid : Uint256} {e : CCoins}
    (h : view.origin nHeight vtx txid = some e)
    (hnew : ∀ tx ∈ vtx', view.unspent tx.hash = none) :
    view.origin nHeight (vtx ++ vtx') txid = some e := by
  rw [origin, List.find?_append]
  rw [origin] at h
  cases hfind : vtx.find? fun tx => tx.hash = txid with
  | some tx =>
    rw [hfind] at h
    exact h
  | none =>
    have h : view.unspent txid = some e := by
      rw [hfind] at h
      exact h
    have hnone : vtx'.find? (fun tx => tx.hash = txid) = none := by
      refine List.find?_eq_none.mpr fun tx htx htxid => ?_
      have := hnew tx htx
      rw [of_decide_eq_true htxid, h] at this
      cases this
    rw [hnone]
    exact h

theorem origin_of_notMem {vtx : List CTransaction} {txid : Uint256}
    (h : txid ∉ vtx.map CTransaction.hash) : view.origin nHeight vtx txid = view.unspent txid := by
  have hnone : vtx.find? (fun tx => tx.hash = txid) = none :=
    List.find?_eq_none.mpr fun tx htx htxid =>
      h (List.mem_map.mpr ⟨tx, htx, of_decide_eq_true htxid⟩)
  rw [origin, hnone]

theorem origin_append_self {vtx : List CTransaction} {tx : CTransaction}
    (h : tx.hash ∉ vtx.map CTransaction.hash) :
    view.origin nHeight (vtx ++ [tx]) tx.hash = some (CCoins.fromTx tx nHeight) := by
  have hnone : vtx.find? (fun tx' => tx'.hash = tx.hash) = none :=
    List.find?_eq_none.mpr fun tx' htx' heq =>
      h (List.mem_map.mpr ⟨tx', htx', of_decide_eq_true heq⟩)
  rw [origin, List.find?_append, hnone]
  simp

/-- The view after some transactions of a block. -/
structure Progress (view : CCoinsViewCache) (nHeight : ℤ) (vtx : List CTransaction)
    (view' : CCoinsViewCache) : Prop where
  output : ∀ txid n, view'.output txid n =
    if ∃ o ∈ spentBy vtx, o.Names txid n then none
    else (view.origin nHeight vtx txid).bind fun e => e.output n
  bare : ∀ txid c, view'.unspent txid = some c →
    ∃ e, view.origin nHeight vtx txid = some e ∧ c.bare = e.bare
  known : ∀ o ∈ spentBy vtx, ∃ e, view.origin nHeight vtx o.hash = some e ∧
    e.output o.n.toNat ≠ none
  nodup : (vtx.map CTransaction.hash).Nodup
  tidy : view'.Tidy

theorem progress_nil (htidy : view.Tidy) : Progress view nHeight [] view := by
  refine ⟨fun txid n => ?_, fun _ c hc => ⟨c, hc, rfl⟩, nofun, List.nodup_nil, htidy⟩
  rw [output_eq]
  simp [spentBy, origin]

section Step

variable {vtx : List CTransaction} {tx : CTransaction}

/-- A transaction that is new to the view and to the block is new to the view so far. -/
theorem Progress.unspent_eq_none (h : Progress view nHeight vtx view₁)
    (hnew : tx.hash ∉ vtx.map CTransaction.hash) (hold : view.unspent tx.hash = none) :
    view₁.unspent tx.hash = none := by
  refine CCoinsViewCache.unspent_eq_none.mpr fun n => ?_
  rw [h.output, origin_of_notMem hnew, hold]
  split <;> rfl

/-- A transaction that spends something is not one that was applied before. -/
theorem Progress.hash_notMem (h : Progress view nHeight vtx view₁) {undo : CTxUndo}
    (hupdate : view₁.updateCoins tx nHeight = some (view₂, undo)) (hcb : tx.isCoinBase = false)
    (hvin : tx.vin ≠ []) (hinj : ∀ tx' ∈ vtx, tx'.hash = tx.hash → tx' = tx) :
    tx.hash ∉ vtx.map CTransaction.hash := by
  intro hmem
  obtain ⟨tx', htx', hhash⟩ := List.mem_map.mp hmem
  obtain rfl := hinj tx' htx' hhash
  obtain ⟨txin, hin⟩ := List.exists_mem_of_ne_nil _ hvin
  have hprevout : txin.prevout ∈ if tx'.isCoinBase then [] else tx'.prevouts := by
    rw [hcb]
    exact List.mem_map_of_mem hin
  obtain ⟨_, hspends, -⟩ := updateCoins_spec hupdate
  refine hspends.had txin.prevout
    (List.mem_flatMap.mpr ⟨tx', List.mem_singleton_self _, hprevout⟩) ?_
  rw [h.output]
  exact if_pos ⟨_, List.mem_flatMap.mpr ⟨tx', htx', hprevout⟩, rfl, rfl⟩

theorem Progress.step (h : Progress view nHeight vtx view₁) {undo : CTxUndo}
    (hupdate : view₁.updateCoins tx nHeight = some (view₂, undo))
    (hnew : tx.hash ∉ vtx.map CTransaction.hash) (hold : view.unspent tx.hash = none)
    (hnull : ∀ o ∈ tx.vout, o.isNull = true → o = CTxOut.null) :
    Progress view nHeight (vtx ++ [tx]) view₂ := by
  obtain ⟨view', hspends, rfl⟩ := updateCoins_spec hupdate
  have hnone := h.unspent_eq_none hnew hold
  have hspent : spentBy (vtx ++ [tx]) = spentBy vtx ++ spentBy [tx] := List.flatMap_append
  have hkeep : ∀ {txid e}, view.origin nHeight vtx txid = some e →
      view.origin nHeight (vtx ++ [tx]) txid = some e := fun he =>
    origin_append_of_some he fun tx' htx' => by rw [List.mem_singleton.mp htx']; exact hold
  -- what the new transaction spends was there before it
  have hknown : ∀ o ∈ spentBy [tx], ∃ e, view.origin nHeight vtx o.hash = some e ∧
      e.output o.n.toNat ≠ none := by
    intro o ho
    have hhad := hspends.had o ho
    rw [h.output] at hhad
    split at hhad
    · exact absurd rfl hhad
    · cases horigin : view.origin nHeight vtx o.hash with
      | none => rw [horigin] at hhad; exact absurd rfl hhad
      | some e => rw [horigin] at hhad; exact ⟨e, rfl, hhad⟩
  have hknown' : ∀ o ∈ spentBy (vtx ++ [tx]), ∃ e, view.origin nHeight vtx o.hash = some e ∧
      e.output o.n.toNat ≠ none := by
    intro o ho
    rw [hspent] at ho
    rcases List.mem_append.mp ho with ho | ho
    · exact h.known o ho
    · exact hknown o ho
  have hself : ∀ o ∈ spentBy (vtx ++ [tx]), o.hash ≠ tx.hash := by
    intro o ho heq
    obtain ⟨e, he, -⟩ := hknown' o ho
    rw [heq, origin_of_notMem hnew, hold] at he
    cases he
  have hother : ∀ txid, txid ≠ tx.hash →
      view.origin nHeight (vtx ++ [tx]) txid = view.origin nHeight vtx txid := by
    intro txid htxid
    have hfind : [tx].find? (fun tx' => tx'.hash = txid) = none := by simp [Ne.symm htxid]
    rw [origin, origin, List.find?_append, hfind, Option.or_none]
  refine ⟨fun txid n => ?_, fun txid c hc => ?_, fun o ho => ?_, ?_, fun txid c hc => ?_⟩
  · rw [addOutputs, output_putCoins, CTransaction.getHash]
    by_cases htxid : txid = tx.hash
    · subst htxid
      rw [if_pos rfl, origin_append_self hnew, if_neg]
      · rfl
      · rintro ⟨o, ho, hname, -⟩
        exact hself o ho hname
    · rw [if_neg htxid, hspends.output, h.output, hother txid htxid, hspent]
      simp only [List.mem_append, or_and_right, exists_or]
      by_cases hleft : ∃ o ∈ spentBy vtx, o.Names txid n
      · simp only [hleft, if_true, true_or]
        split <;> rfl
      · simp only [hleft, if_false, false_or]
  · rw [addOutputs, unspent_putCoins] at hc
    split at hc
    · next htxid =>
      split at hc
      · cases hc
      · obtain rfl := Option.some.inj hc
        exact ⟨CCoins.fromTx tx nHeight, htxid ▸ origin_append_self hnew, rfl⟩
    · obtain ⟨c₁, hc₁, hbare₁⟩ := hspends.bare txid c hc
      obtain ⟨e, he, hbare⟩ := h.bare txid c₁ hc₁
      exact ⟨e, hkeep he, hbare₁.trans hbare⟩
  · obtain ⟨e, he, hout⟩ := hknown' o ho
    exact ⟨e, hkeep he, hout⟩
  · rw [List.map_append, List.nodup_append]
    refine ⟨h.nodup, List.nodup_singleton _, fun a ha b hb hab => ?_⟩
    rw [hab, List.mem_singleton.mp hb] at ha
    exact hnew ha
  · rw [addOutputs, unspent_putCoins] at hc
    split at hc
    · split at hc
      · cases hc
      · obtain rfl := Option.some.inj hc
        have htidy := CCoins.tidy_fromTx hnull nHeight
        rw [htidy.cleanup]
        exact htidy
    · exact hspends.tidy h.tidy txid c hc

end Step

end CCoinsViewCache

end Scrypta
