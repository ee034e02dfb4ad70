import Scrypta.ConnectBlock

/-! In which ways `CheckBlock` and `ConnectBlock` refuse a block. -/

namespace Scrypta.Validation

section Refusals

variable {α β : Type} {P : Refusal → Prop}

/-- Every way in which the computation refuses is of a kind. -/
def Refuses (P : Refusal → Prop) (x : Except Refusal α) : Prop := ∀ r, x = .error r → P r

/-- Not a bare `false`. -/
def Refusal.Worded (r : Refusal) : Prop := r ≠ .failed

/-- Neither damage nor a bare `false`. -/
def Refusal.Plain : Refusal → Prop
  | .dos _ _ corruptionIn => corruptionIn = false
  | .failed => False
  | .noReturn => True
  | .crashed => True

theorem plain_dos (nDoS : ℕ) (strRejectReason : String) : (dos nDoS strRejectReason).Plain := rfl

theorem worded_dos (nDoS : ℕ) (strRejectReason : String) (corruptionIn : Bool) :
    (Refusal.dos nDoS strRejectReason corruptionIn).Worded := fun h => nomatch h

theorem refuses_ok (a : α) : Refuses P (.ok a : Except Refusal α) := fun _ h => nomatch h

theorem refuses_pure (a : α) : Refuses P (pure a : Except Refusal α) := fun _ h => nomatch h

theorem refuses_error {r : Refusal} (h : P r) : Refuses P (.error r : Except Refusal α) :=
  fun _ he => Except.error.inj he ▸ h

theorem Refuses.bind {x : Except Refusal α} {f : α → Except Refusal β} (hx : Refuses P x)
    (hf : ∀ a, Refuses P (f a)) : Refuses P (x >>= f) := by
  cases x with
  | error r => exact fun r' he => hx r' (congrArg Except.error (Except.error.inj he))
  | ok a => exact hf a

theorem refuses_require {c : Bool} {r : Refusal} (h : P r) : Refuses P (require c r) := by
  unfold require
  split
  · exact refuses_ok ()
  · exact refuses_error h

theorem Refuses.whenever {c : Bool} {check : Except Refusal Unit} (h : Refuses P check) :
    Refuses P (whenever c check) := by
  unfold Validation.whenever
  split
  · exact h
  · exact refuses_ok ()

theorem refuses_returned (h : P .noReturn) (x : Option α) : Refuses P (returned x) := by
  cases x with
  | none => exact refuses_error h
  | some a => exact refuses_ok a

theorem refuses_present (h : P .crashed) (x : Option α) : Refuses P (present x) := by
  cases x with
  | none => exact refuses_error h
  | some a => exact refuses_ok a

theorem Refuses.ite {c : Prop} [Decidable c] {x y : Except Refusal α} (hx : Refuses P x)
    (hy : Refuses P y) : Refuses P (if c then x else y) := by
  split
  · exact hx
  · exact hy

end Refusals

section Branches

variable (par : Params) (orc : Oracles) (env : Env)

theorem refuses_checkInputValues (nSpendHeight : ℤ) (view : CCoinsViewCache) (vin : List CTxIn)
    (nValueIn : CAmount) :
    Refuses Refusal.Plain (checkInputValues par nSpendHeight view vin nValueIn) := by
  induction vin generalizing nValueIn with
  | nil => exact refuses_ok _
  | cons txin vin ih =>
    refine (refuses_present trivial _).bind fun coins => ?_
    refine (refuses_require (plain_dos _ _)).bind fun _ => ?_
    exact (refuses_require (plain_dos _ _)).bind fun _ => ih _

theorem refuses_runScripts (view : CCoinsViewCache) (flags : ℕ) (tx : CTransaction)
    (inputs : List (CTxIn × ℕ)) : Refuses Refusal.Plain (runScripts orc view flags tx inputs) := by
  induction inputs with
  | nil => exact refuses_ok _
  | cons input inputs ih =>
    obtain ⟨txin, nIn⟩ := input
    exact ih.ite ((refuses_error (plain_dos _ _)).ite (refuses_error (plain_dos _ _)))

theorem refuses_checkFee (nValueIn : CAmount) (tx : CTransaction) :
    Refuses Refusal.Plain (checkFee par nValueIn tx) := by
  refine (refuses_ok _).ite ((refuses_present trivial _).bind fun _ => ?_)
  exact (refuses_require (plain_dos _ _)).bind fun _ => refuses_require (plain_dos _ _)

theorem refuses_checkInputs (tx : CTransaction) (view : CCoinsViewCache) (fScriptChecks : Bool)
    (flags : ℕ) : Refuses Refusal.Plain (checkInputs par orc env tx view fScriptChecks flags) := by
  refine (refuses_ok _).ite ((refuses_require (plain_dos _ _)).bind fun _ => ?_)
  refine (refuses_present trivial _).bind fun _ => ?_
  refine (refuses_checkInputValues par _ view tx.vin 0).bind fun nValueIn => ?_
  refine (refuses_checkFee par nValueIn tx).bind fun _ => ?_
  refine (refuses_pure _).ite ((refuses_pure _).ite ?_)
  exact (refuses_runScripts orc view flags tx _).bind fun _ => refuses_pure _

theorem refuses_addFee (nFees nValueIn : CAmount) (tx : CTransaction) :
    Refuses Refusal.Plain (addFee nFees nValueIn tx) :=
  (refuses_ok _).ite ((refuses_present trivial _).bind fun _ => refuses_pure _)

theorem refuses_tallyInputs (flags : ℕ) (fScriptChecks : Bool) (t : Tally) (tx : CTransaction) :
    Refuses Refusal.Plain (tallyInputs par orc env flags fScriptChecks t tx) := by
  refine (refuses_ok _).ite ((refuses_require (plain_dos _ _)).bind fun _ => ?_)
  refine (refuses_require (plain_dos _ _)).bind fun _ => ?_
  refine (refuses_addFee _ _ tx).bind fun _ => ?_
  exact (refuses_checkInputs par orc env tx _ _ _).bind fun _ => refuses_pure _

theorem refuses_connectTransaction (nHeight : ℤ) (flags : ℕ) (fScriptChecks : Bool) (t : Tally)
    (tx : CTransaction) :
    Refuses Refusal.Plain (connectTransaction par orc env nHeight flags fScriptChecks t tx) := by
  refine (refuses_require (plain_dos _ _)).bind fun _ => ?_
  refine (refuses_tallyInputs par orc env _ _ _ tx).bind fun _ => ?_
  refine (refuses_present trivial _).bind fun _ => ?_
  exact (refuses_present trivial _).bind fun _ => refuses_pure _

theorem refuses_connectTransactions (nHeight : ℤ) (flags : ℕ) (fScriptChecks : Bool) (t : Tally)
    (vtx : List CTransaction) :
    Refuses Refusal.Plain
      (connectTransactions par orc env nHeight flags fScriptChecks t vtx) := by
  induction vtx generalizing t with
  | nil => exact refuses_ok _
  | cons tx vtx ih =>
    refine (refuses_connectTransaction par orc env _ _ _ t tx).bind fun _ => ?_
    exact (ih _).bind fun _ => refuses_pure _

/-- The bare `false` of the recipient checks is never reached: the protocol version that they
wait for is the answer of no call that returns. -/
theorem refuses_enforceRecipients (block : CBlock) (nHeight : ℤ) (nExpectedMint : CAmount) :
    Refuses Refusal.Plain (enforceRecipients env block nHeight nExpectedMint) := by
  refine Refuses.ite ?_ (refuses_ok _)
  intro r hr
  cases hp : Spork.activeProtocol env.sporks with
  | none =>
    rw [hp] at hr
    cases hr
    trivial
  | some p =>
    obtain rfl := Spork.activeProtocol_some hp
    rw [hp] at hr
    cases hr

/-! `CheckBlock` always says that the block is invalid. -/

theorem refuses_checkOutputs (tx : CTransaction) (vout : List CTxOut) (nValueOut : CAmount) :
    Refuses Refusal.Worded (checkOutputs par tx vout nValueOut) := by
  induction vout generalizing nValueOut with
  | nil => exact refuses_ok _
  | cons txout vout ih =>
    refine (refuses_require (worded_dos _ _ _)).bind fun _ => ?_
    refine (refuses_require (worded_dos _ _ _)).bind fun _ => ?_
    refine (refuses_require (worded_dos _ _ _)).bind fun _ => ?_
    exact (refuses_require (worded_dos _ _ _)).bind fun _ => ih _

theorem refuses_checkTransaction (tx : CTransaction) :
    Refuses Refusal.Worded (checkTransaction par tx) := by
  refine (refuses_require (worded_dos _ _ _)).bind fun _ => ?_
  refine (refuses_require (worded_dos _ _ _)).bind fun _ => ?_
  refine (refuses_require (worded_dos _ _ _)).bind fun _ => ?_
  refine (refuses_checkOutputs par tx _ _).bind fun _ => ?_
  refine (refuses_require (worded_dos _ _ _)).bind fun _ => ?_
  refine (refuses_require (worded_dos _ _ _)).whenever.bind fun _ => ?_
  exact (refuses_require (worded_dos _ _ _)).whenever

theorem refuses_checkTransactions (vtx : List CTransaction) :
    Refuses Refusal.Worded (checkTransactions par vtx) := by
  induction vtx with
  | nil => exact refuses_ok _
  | cons tx vtx ih => exact (refuses_checkTransaction par tx).bind fun _ => ih

theorem refuses_isBlockPayeeValid (block : CBlock) (nBlockHeight : ℤ) :
    Refuses Refusal.Worded (isBlockPayeeValid par env block nBlockHeight) := by
  have hreturns : Refusal.noReturn.Worded := fun h => nomatch h
  have hpresent : Refusal.crashed.Worded := fun h => nomatch h
  refine (refuses_ok _).ite ((refuses_present hpresent _).bind fun _ => ?_)
  refine (refuses_returned hreturns _).bind fun _ => ?_
  refine Refuses.ite ?_ ?_
  · exact (refuses_returned hreturns _).bind fun _ => refuses_pure _
  · exact (refuses_returned hreturns _).bind fun _ => refuses_pure _

theorem refuses_checkBlock (block : CBlock) (fCheckMerkleRoot : Bool) :
    Refuses Refusal.Worded (checkBlock par orc env block fCheckMerkleRoot) := by
  have hrequire {c : Bool} {nDoS : ℕ} {strRejectReason : String} {corruptionIn : Bool} :
      Refuses Refusal.Worded (require c (.dos nDoS strRejectReason corruptionIn)) :=
    refuses_require (worded_dos _ _ _)
  refine hrequire.bind fun _ => hrequire.bind fun _ => ?_
  refine (Refuses.whenever (hrequire.bind fun _ => hrequire)).bind fun _ => ?_
  refine hrequire.bind fun _ => hrequire.bind fun _ => hrequire.bind fun _ => ?_
  refine (Refuses.whenever (hrequire.bind fun _ => hrequire)).bind fun _ => ?_
  refine hrequire.bind fun _ => ?_
  refine (Refuses.whenever ((refuses_isBlockPayeeValid par env block _).bind
    fun _ => hrequire)).bind fun _ => ?_
  exact (refuses_checkTransactions par block.vtx).bind fun _ => hrequire

theorem connectBlock_of_checkBlock {disk : Disk} {block : CBlock} {pindex : CBlockIndex}
    {view : CCoinsViewCache} {r : Refusal} (h : checkBlock par orc env block true = .error r) :
    connectBlock par orc env disk block pindex view false = .error r := by
  simp only [connectBlock, Bool.not_false, h]
  rfl

/-- What `ConnectBlock` does after `CheckBlock`, when the disk works. -/
theorem refuses_connectBlock {block : CBlock} {pindex : CBlockIndex} {view : CCoinsViewCache}
    {r : Refusal} (h : connectBlock par orc env {} block pindex view false = .error r) :
    r.Plain ∨ (r ≠ .failed ∧ checkBlock par orc env block true = .error r) := by
  cases hcheck : checkBlock par orc env block true with
  | error r' =>
    simp only [connectBlock, Bool.not_false, hcheck] at h
    obtain rfl : r' = r := Except.error.inj h
    exact Or.inr ⟨refuses_checkBlock par orc env block true r' hcheck, rfl⟩
  | ok u =>
    refine Or.inl ?_
    simp only [connectBlock, Bool.not_false, hcheck] at h
    refine Refuses.bind (refuses_require trivial) (fun _ => ?_) r h
    refine (refuses_pure _).ite ?_
    refine (refuses_require (plain_dos _ _)).bind fun _ => ?_
    refine (refuses_require (plain_dos _ _)).bind fun _ => ?_
    refine (refuses_require (plain_dos _ _)).bind fun _ => ?_
    refine (refuses_connectTransactions par orc env _ _ _ _ _).bind fun t => ?_
    refine Refuses.bind (refuses_ok ()) fun _ => ?_
    refine (refuses_present trivial _).bind fun _ => ?_
    refine (refuses_returned trivial _).bind fun _ => ?_
    refine (refuses_require (plain_dos _ _)).bind fun _ => ?_
    refine (refuses_enforceRecipients env block _ _).bind fun _ => ?_
    refine (refuses_require (plain_dos _ _)).bind fun _ => ?_
    exact (refuses_ok ()).bind fun _ => refuses_pure _

end Branches

end Scrypta.Validation
