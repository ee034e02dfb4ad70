import Scrypta.Minting

/-! The superblock that a node makes: `FillBlockPayee` of the budget manager against its
`IsTransactionValid` on the same node. -/

namespace Scrypta.Validation

open Spork Budget Kernel

/-- `GetPayeeAndAmount` -/
def getPayeeAndAmount (b : CFinalizedBudget) (nBlockHeight : ℤ) : Option (CScript × CAmount) :=
  (b.getBudgetPaymentByBlock nBlockHeight).map fun payment => (payment.payee, payment.nAmount)

/-- The scan of `FillBlockPayee`: the highest vote count so far, and the payment with it. -/
def highestPayment (nBlockHeight : ℤ) :
    List CFinalizedBudget → ℤ × CScript × CAmount → ℤ × CScript × CAmount
  | [], found => found
  | b :: rest, found =>
    if found.1 < b.getVoteCount ∧ b.covers nBlockHeight = true then
      match getPayeeAndAmount b nBlockHeight with
      | some payeeAndAmount => highestPayment nBlockHeight rest (b.getVoteCount, payeeAndAmount)
      | none => highestPayment nBlockHeight rest found
    else highestPayment nBlockHeight rest found

section Fill

variable (par : Params) (env : Env)

/-- `CBudgetManager::FillBlockPayee`. The outputs without a proof of stake are rewritten in
place; `none` where the first of them is not there. -/
def budgetFillBlockPayee (txNew : CTransaction) (fProofOfStake : Bool) : Option CTransaction :=
  match env.chainActive.tip with
  | none => some txNew
  | some pindexPrev =>
    let found := highestPayment (pindexPrev.height + 1) env.mapFinalizedBudgets.all (0, [], 0)
    let blockValue := nextBlockValue par env pindexPrev
    if fProofOfStake then
      if 0 < found.1 then
        some { txNew with vout := txNew.vout ++
          [{ CTxOut.null with scriptPubKey := found.2.1, nValue := found.2.2 }] }
      else some txNew
    else
      match txNew.vout with
      | [] => none
      | out :: rest =>
        let out := { out with nValue := blockValue }
        if 0 < found.1 then
          some { txNew with vout := [out, { rest.headD CTxOut.null with
            scriptPubKey := found.2.1, nValue := found.2.2 }] }
        else some { txNew with vout := out :: rest }

end Fill

variable {par : Params} {env : Env}

/-- The scan counts as that of `IsTransactionValid`, and its payment is one of a budget with that
many votes. -/
theorem highestPayment_spec (nBlockHeight : ℤ) (l : List CFinalizedBudget)
    (found : ℤ × CScript × CAmount) :
    (highestPayment nBlockHeight l found).1 = highestCount nBlockHeight l found.1 ∧
      (highestPayment nBlockHeight l found = found ∨ ∃ b ∈ l, b.covers nBlockHeight = true ∧
        b.getVoteCount = highestCount nBlockHeight l found.1 ∧
        getPayeeAndAmount b nBlockHeight = some (highestPayment nBlockHeight l found).2) := by
  induction l generalizing found with
  | nil => exact ⟨rfl, Or.inl rfl⟩
  | cons b rest ih =>
    rw [highestPayment, highestCount]
    split
    · next h =>
      obtain ⟨payment, hpayment⟩ := exists_payment h.2
      have hfound : getPayeeAndAmount b nBlockHeight = some (payment.payee, payment.nAmount) := by
        rw [getPayeeAndAmount, hpayment]
        rfl
      simp only [hfound]
      obtain ⟨hcount, hpays⟩ := ih (b.getVoteCount, payment.payee, payment.nAmount)
      refine ⟨hcount, Or.inr ?_⟩
      rcases hpays with hsame | ⟨c, hc, hcov, hvotes, hpays⟩
      · refine ⟨b, List.mem_cons_self, h.2, ?_, by rw [hsame, hfound]⟩
        rw [← hcount, hsame]
      · exact ⟨c, List.mem_cons_of_mem _ hc, hcov, hvotes, hpays⟩
    · obtain ⟨hcount, hpays⟩ := ih found
      refine ⟨hcount, hpays.imp id ?_⟩
      rintro ⟨c, hc, hrest⟩
      exact ⟨c, List.mem_cons_of_mem _ hc, hrest⟩

/-- A superblock has a budget with votes. -/
theorem highestCount_of_superblock {man : Manager} {nBlockHeight : ℤ}
    (h : isBudgetPaymentBlock man nBlockHeight = some true) :
    ∃ p, activeProtocol man.sporks = some p ∧ (0 ≤ man.countEnabled p →
      0 < highestCount nBlockHeight man.mapFinalizedBudgets.all 0 ∧
        (man.countEnabled p).tdiv 20 <
          highestCount nBlockHeight man.mapFinalizedBudgets.all 0) := by
  obtain ⟨p, hp, habove⟩ := Option.map_eq_some_iff.mp h
  refine ⟨p, hp, fun hcount => ?_⟩
  have habove := of_decide_eq_true habove
  have h20 : 0 ≤ (man.countEnabled p).tdiv 20 := Int.tdiv_nonneg hcount (by norm_num)
  have hstart : highestCount nBlockHeight man.mapFinalizedBudgets.all 0 =
      highestCount nBlockHeight man.mapFinalizedBudgets.all (-1) :=
    highestCount_start (by norm_num) (by omega)
  omega

/-- The coinstake that a node completes for a superblock passes the check of the same node if and
only if the node counts at least ten enabled masternodes. -/
theorem own_superblock_valid_iff (par : Params) (env : Env) (pindexPrev : CBlockIndex)
    (txNew : CTransaction) (htip : env.chainActive.tip = some pindexPrev)
    (hsuper : isBudgetPaymentBlock env.budget (pindexPrev.height + 1) = some true) :
    (∃ tx, budgetFillBlockPayee par env txNew true = some tx ∧
      Budget.isTransactionValid env.budget tx (pindexPrev.height + 1) = some true) ↔
    ∃ p, activeProtocol env.sporks = some p ∧ 10 ≤ env.countEnabled p := by
  constructor
  · rintro ⟨tx, -, hvalid⟩
    by_contra hfew
    have hfew' : FewMasternodes env := fun p hp => by
      by_contra hmany
      exact hfew ⟨p, hp, not_lt.mp hmany⟩
    exact absurd (isTransactionValid_of_few hfew' hvalid) (by decide)
  · rintro ⟨p, hp, hmany⟩
    obtain ⟨p', hp', hvotes⟩ := highestCount_of_superblock hsuper
    obtain rfl : p = p' := Option.some.inj (hp.symm.trans hp')
    obtain ⟨hpos, habove⟩ := hvotes (le_trans (by norm_num) hmany)
    obtain ⟨hcount, hpays⟩ := highestPayment_spec (pindexPrev.height + 1)
      env.mapFinalizedBudgets.all (0, [], 0)
    have hpos' : 0 < (highestPayment (pindexPrev.height + 1) env.mapFinalizedBudgets.all
        (0, [], 0)).1 := hcount ▸ hpos
    have hfill : budgetFillBlockPayee par env txNew true = some { txNew with vout := txNew.vout ++
        [{ CTxOut.null with
          scriptPubKey := (highestPayment (pindexPrev.height + 1) env.mapFinalizedBudgets.all
            (0, [], 0)).2.1
          nValue := (highestPayment (pindexPrev.height + 1) env.mapFinalizedBudgets.all
            (0, [], 0)).2.2 }] } := by
      unfold budgetFillBlockPayee
      rw [htip]
      exact if_pos hpos'
    refine ⟨_, hfill, ?_⟩
    rcases hpays with hsame | ⟨b, hb, hcov, hb', hpayment⟩
    · rw [hsame] at hpos'
      exact absurd hpos' (lt_irrefl _)
    · obtain ⟨payment, hpayment, heq⟩ := Option.map_eq_some_iff.mp hpayment
      rw [← heq]
      have hle : (env.budget.countEnabled p).tdiv 20 ≤ b.getVoteCount := by
        rw [hb']
        exact habove.le
      exact isTransactionValid_of_highest hp hmany hb hcov hb' hle hpayment
        (List.mem_append_right _ List.mem_cons_self) rfl rfl

/-! A node that counts nine enabled masternodes, before the superblock at height 144. -/

def fewEnv : Env := { superEnv with countEnabled := fun _ => 9 }

def stakeTemplate : CTransaction :=
  spendOf 501 ⟨77, 0⟩ [⟨0, [], -10⟩, ⟨10010 * coin, [0x51], -10⟩]

set_option maxRecDepth 2000 in
/-- The node completes the superblock and refuses it. -/
theorem own_superblock_refused :
    fewEnv.isSynced = true ∧
      isSporkActive fewEnv.sporks spork13EnableSuperblocks = true ∧
      isSporkActive fewEnv.sporks spork9MasternodeBudgetEnforcement = true ∧
      isBudgetPaymentBlock fewEnv.budget 144 = some true ∧
      ∃ tx, budgetFillBlockPayee testParams fewEnv stakeTemplate true = some tx ∧
        Budget.isTransactionValid fewEnv.budget tx 144 = some false := by
  refine ⟨rfl, by decide, by decide, by decide, { stakeTemplate with
    vout := stakeTemplate.vout ++ [⟨100 * coin, [0x52], -10⟩] }, ?_, ?_⟩
  · decide
  · decide

set_option maxRecDepth 2000 in
theorem own_superblock_valid_sample :
    ∃ tx, budgetFillBlockPayee testParams superEnv stakeTemplate true = some tx ∧
      Budget.isTransactionValid superEnv.budget tx ((plainChain 143).height + 1) = some true :=
  (own_superblock_valid_iff testParams superEnv (plainChain 143) stakeTemplate
    (CChain.tip_ofTip _) (by decide)).mpr
    ⟨minPeerProtoVersionBeforeEnforcement, by decide, by decide⟩

end Scrypta.Validation
