import Scrypta.Spork

/-! Finalized budgets. A finalized budget schedules one payment for each block from its start
on, and counts when enough masternodes voted for it. -/

namespace Scrypta.Budget

open Spork

structure CTxBudgetPayment where
  nProposalHash : Uint256
  payee : CScript
  nAmount : CAmount
  deriving DecidableEq, Repr

structure CFinalizedBudgetVote where
  vin : CTxIn
  nBudgetHash : Uint256
  nTime : ℤ
  vchSig : Bytes
  fValid : Bool := true
  deriving DecidableEq, Repr

structure CFinalizedBudget where
  nBlockStart : ℤ
  vecBudgetPayments : List CTxBudgetPayment
  mapVotes : Dict Uint256 CFinalizedBudgetVote
  strBudgetName : String := ""
  nFeeTXHash : Uint256 := 0
  nTime : ℤ := 0
  fValid : Bool := true

namespace CFinalizedBudget

def getBlockStart (b : CFinalizedBudget) : ℤ := b.nBlockStart

def getBlockEnd (b : CFinalizedBudget) : ℤ := b.nBlockStart + (b.vecBudgetPayments.length - 1)

def getVoteCount (b : CFinalizedBudget) : ℤ := b.mapVotes.toList.length

def covers (b : CFinalizedBudget) (nBlockHeight : ℤ) : Bool :=
  b.getBlockStart ≤ nBlockHeight && nBlockHeight ≤ b.getBlockEnd

/-- The payment for one block. -/
def getBudgetPaymentByBlock (b : CFinalizedBudget) (nBlockHeight : ℤ) :
    Option CTxBudgetPayment :=
  let i := nBlockHeight - b.getBlockStart
  if i < 0 then none else b.vecBudgetPayments[i.toNat]?

/-- `CFinalizedBudget::IsTransactionValid`: some output is the payment for the block. -/
def isTransactionValid (b : CFinalizedBudget) (txNew : CTransaction) (nBlockHeight : ℤ) : Bool :=
  match b.getBudgetPaymentByBlock nBlockHeight with
  | none => false
  | some payment => txNew.vout.any fun out =>
      payment.payee == out.scriptPubKey && payment.nAmount == out.nValue

end CFinalizedBudget

abbrev FinalizedBudgets := Dict Uint256 CFinalizedBudget

def FinalizedBudgets.all (m : FinalizedBudgets) : List CFinalizedBudget := m.toList.map Prod.snd

/-- The scan for the highest vote count of a budget that covers the block. -/
def highestCount (nBlockHeight : ℤ) : List CFinalizedBudget → ℤ → ℤ
  | [], nHighestCount => nHighestCount
  | b :: rest, nHighestCount =>
    if nHighestCount < b.getVoteCount ∧ b.covers nBlockHeight = true then
      highestCount nBlockHeight rest b.getVoteCount
    else highestCount nBlockHeight rest nHighestCount

/-- What the budget manager reads of the node: the finalized budgets, the sporks, and the number
of enabled masternodes from a protocol version on. -/
structure Manager where
  mapFinalizedBudgets : FinalizedBudgets
  sporks : Sporks
  countEnabled : ℤ → ℤ

variable (man : Manager)

/-- `none` when `ActiveProtocol` does not return. -/
def isBudgetPaymentBlock (nBlockHeight : ℤ) : Option Bool :=
  (activeProtocol man.sporks).map fun p =>
    decide ((man.countEnabled p).tdiv 20 <
      highestCount nBlockHeight man.mapFinalizedBudgets.all (-1))

/-- `CBudgetManager::IsTransactionValid`; `none` when `ActiveProtocol` does not return. -/
def isTransactionValid (txNew : CTransaction) (nBlockHeight : ℤ) : Option Bool :=
  (activeProtocol man.sporks).map fun p =>
    let nHighestCount := highestCount nBlockHeight man.mapFinalizedBudgets.all 0
    if nHighestCount < (man.countEnabled p).tdiv 20 then false
    else man.mapFinalizedBudgets.all.any fun b =>
      decide (nHighestCount - (man.countEnabled p).tdiv 10 < b.getVoteCount) &&
        b.covers nBlockHeight && b.isTransactionValid txNew nBlockHeight

variable {man}

theorem le_highestCount (nBlockHeight : ℤ) (l : List CFinalizedBudget) (n : ℤ) :
    n ≤ highestCount nBlockHeight l n := by
  induction l generalizing n with
  | nil => exact Int.le_refl n
  | cons b rest ih =>
    rw [highestCount]
    split
    · next h => exact Int.le_trans (Int.le_of_lt h.1) (ih _)
    · exact ih n

theorem highestCount_attained (nBlockHeight : ℤ) (l : List CFinalizedBudget) (n : ℤ) :
    highestCount nBlockHeight l n = n ∨
      ∃ b ∈ l, b.covers nBlockHeight = true ∧ b.getVoteCount = highestCount nBlockHeight l n := by
  induction l generalizing n with
  | nil => exact Or.inl rfl
  | cons b rest ih =>
    rw [highestCount]
    split
    · next h =>
      right
      rcases ih b.getVoteCount with heq | ⟨c, hc, hcov, hcount⟩
      · exact ⟨b, List.mem_cons_self, h.2, heq.symm⟩
      · exact ⟨c, List.mem_cons_of_mem _ hc, hcov, hcount⟩
    · rcases ih n with heq | ⟨c, hc, hcov, hcount⟩
      · exact Or.inl heq
      · exact Or.inr ⟨c, List.mem_cons_of_mem _ hc, hcov, hcount⟩

theorem getVoteCount_le_highestCount {nBlockHeight : ℤ} {l : List CFinalizedBudget} {n : ℤ}
    {b : CFinalizedBudget} (hb : b ∈ l) (hcov : b.covers nBlockHeight = true) :
    b.getVoteCount ≤ highestCount nBlockHeight l n := by
  induction l generalizing n with
  | nil => cases hb
  | cons c rest ih =>
    rw [highestCount]
    rcases List.mem_cons.mp hb with rfl | hrest
    · split
      · exact le_highestCount _ _ _
      · next h =>
        have : b.getVoteCount ≤ n := by
          by_contra hlt
          exact h ⟨by omega, hcov⟩
        exact Int.le_trans this (le_highestCount _ _ _)
    · split
      · exact ih hrest
      · exact ih hrest

/-- Where the scan starts makes no difference as soon as some budget is above it. -/
theorem highestCount_start {nBlockHeight : ℤ} {l : List CFinalizedBudget} {n m : ℤ}
    (hnm : n ≤ m) (h : m < highestCount nBlockHeight l n) :
    highestCount nBlockHeight l m = highestCount nBlockHeight l n := by
  apply Int.le_antisymm
  · rcases highestCount_attained nBlockHeight l m with heq | ⟨b, hb, hcov, hcount⟩
    · omega
    · rw [← hcount]
      exact getVoteCount_le_highestCount hb hcov
  · rcases highestCount_attained nBlockHeight l n with heq | ⟨b, hb, hcov, hcount⟩
    · omega
    · rw [← hcount]
      exact getVoteCount_le_highestCount hb hcov

theorem covers_iff {b : CFinalizedBudget} {nBlockHeight : ℤ} :
    b.covers nBlockHeight = true ↔
      b.nBlockStart ≤ nBlockHeight ∧
        nBlockHeight ≤ b.nBlockStart + (b.vecBudgetPayments.length - 1) := by
  simp only [CFinalizedBudget.covers, Bool.and_eq_true, decide_eq_true_eq]
  exact Iff.rfl

theorem getBudgetPaymentByBlock_of_le {b : CFinalizedBudget} {nBlockHeight : ℤ}
    (h : b.nBlockStart ≤ nBlockHeight) :
    b.getBudgetPaymentByBlock nBlockHeight =
      b.vecBudgetPayments[(nBlockHeight - b.nBlockStart).toNat]? := by
  have hi : ¬ nBlockHeight - b.getBlockStart < 0 := by
    simp only [CFinalizedBudget.getBlockStart]
    omega
  simp only [CFinalizedBudget.getBudgetPaymentByBlock, if_neg hi]
  rfl

/-- A budget that covers a block has a payment for it. -/
theorem exists_payment {b : CFinalizedBudget} {nBlockHeight : ℤ}
    (h : b.covers nBlockHeight = true) :
    ∃ payment, b.getBudgetPaymentByBlock nBlockHeight = some payment := by
  obtain ⟨hstart, hend⟩ := covers_iff.mp h
  have hlt : (nBlockHeight - b.nBlockStart).toNat < b.vecBudgetPayments.length := by omega
  exact ⟨_, (getBudgetPaymentByBlock_of_le hstart).trans (List.getElem?_eq_getElem hlt)⟩

end Scrypta.Budget
