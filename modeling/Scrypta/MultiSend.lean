import Mathlib.Algebra.Order.Group.Nat
import Scrypta.BlockValue
import Scrypta.Toolkit.Harvest

/-! MultiSend: the wallet passes a part of a reward on when the reward matures. -/

namespace Scrypta.MultiSend

open Validation (mainMaxMoneyOut)

def coinbaseMaturity : ℤ := 20

/-- A transaction of the wallet, with its depth in the active chain. -/
structure CWalletTx extends CTransaction where
  depthInMainChain : ℤ
  deriving DecidableEq

structure COutput where
  tx : CWalletTx
  i : ℕ
  inside : i < tx.vout.length

namespace COutput

def txout (out : COutput) : CTxOut := out.tx.vout.get ⟨out.i, out.inside⟩

def outpoint (out : COutput) : COutPoint := ⟨out.tx.hash, BitVec.ofNat 32 out.i⟩

end COutput

def isMasternodeReward (o : COutPoint) (tx : CTransaction) : Bool :=
  tx.isCoinStake && o.n.toNat == tx.vout.length - 1 &&
    (tx.vout[1]?.map CTxOut.scriptPubKey != tx.vout[o.n.toNat]?.map CTxOut.scriptPubKey)

/-- An entry of `vMultiSend`. -/
structure Recipient where
  address : String
  percent : ℕ

/-- The wallet. What is sent is never more than the whole. -/
structure CWallet where
  isMine : CScript → Bool
  mapWallet : Uint256 → Option CTransaction
  vMultiSend : List Recipient
  percents : (vMultiSend.map Recipient.percent).sum ≤ 100
  fMultiSendStake : Bool
  fMultiSendMasternodeReward : Bool
  fMultiSendNotify : Bool
  vDisabledAddresses : List String
  nLastMultiSendHeight : ℤ
  isLocked : Bool

/-- What the wallet asks of the rest of the node: the address that a script pays to, and the script
that pays to an address. -/
structure Env where
  nMaturity : ℤ
  isInitialBlockDownload : Bool
  tipHeight : ℤ
  addressOf : CScript → Option String
  scriptForDestination : String → CScript

/-- An output with what `CreateTransaction` and `CommitTransaction` make of a payment from it. -/
structure Visit where
  out : COutput
  nFeeRet : ℕ
  created : Bool
  committed : Bool

def moneyRange (nValue : CAmount) : Bool :=
  decide (0 ≤ nValue) && decide (nValue ≤ mainMaxMoneyOut)

/-- A sum that is kept only in the range of money; `none` is the exception. -/
def addInRange (nSum nValue : CAmount) : Option CAmount :=
  if moneyRange (nSum + nValue) then some (nSum + nValue) else none

namespace CWallet

variable (w : CWallet)

def getTxInDebit (txin : CTxIn) : CAmount :=
  match (w.mapWallet txin.prevout.hash).bind fun prev => prev.vout[txin.prevout.n.toNat]? with
  | some txout => if w.isMine txout.scriptPubKey then txout.nValue else 0
  | none => 0

def getTxOutCredit (txout : CTxOut) : CAmount :=
  if w.isMine txout.scriptPubKey then txout.nValue else 0

def getDebit (tx : CTransaction) : Option CAmount :=
  tx.vin.foldlM (fun nDebit txin => addInRange nDebit (w.getTxInDebit txin)) 0

def getBlocksToMaturity (env : Env) (tx : CWalletTx) : ℤ :=
  if !(tx.isCoinBase || tx.isCoinStake) then 0
  else max 0 (env.nMaturity + 1 - tx.depthInMainChain)

def getCredit (env : Env) (tx : CWalletTx) : Option CAmount :=
  if tx.isCoinBase && decide (0 < getBlocksToMaturity env tx) then some 0
  else tx.vout.foldlM (fun nCredit txout =>
    if moneyRange txout.nValue then addInRange nCredit (w.getTxOutCredit txout) else none) 0

/-- The net reward of a transaction. -/
def netReward (env : Env) (tx : CWalletTx) : Option CAmount := do
  let nCredit ← w.getCredit env tx
  let nDebit ← w.getDebit tx.toCTransaction
  some (toInt64 (nCredit - nDebit))

end CWallet

def share (nReward : CAmount) (percent : ℕ) : CAmount := (toInt64 (nReward * percent)).tdiv 100

section Loop

variable (env : Env) (w : CWallet)

def sendMSonMNReward (out : COutput) : Bool :=
  w.fMultiSendMasternodeReward && isMasternodeReward out.outpoint out.tx.toCTransaction

def sendMSOnStake (out : COutput) : Bool :=
  w.fMultiSendStake && out.tx.isCoinStake && !sendMSonMNReward w out

/-- The payments that a reward is split into. With nobody to pay to it is not even looked at. -/
def vecSend (tx : CWalletTx) : Option (List (CScript × CAmount)) :=
  w.vMultiSend.mapM fun r => do
    let nReward ← w.netReward env tx
    some (env.scriptForDestination r.address, share nReward r.percent)

/-- How a call ends. `thrown` is the exception on amounts out of range, and `outside` the read of
a last payment that is not there. -/
inductive Ending
  | returned (sent : Bool)
  | thrown
  | outside
  deriving DecidableEq

/-- The payments that are sent from one output, or why none are. -/
def attempt (v : Visit) (address : String) : Except Ending (List (CScript × CAmount)) :=
  if address ∈ w.vDisabledAddresses then .error (.returned false)
  else match vecSend env w v.out.tx with
  | none => .error .thrown
  | some payments =>
    match payments.getLast? with
    | none => .error .outside
    | some (scriptPubKey, nLastSendAmount) =>
      if nLastSendAmount < v.nFeeRet + 500 then .error (.returned false)
      else if !v.created then .error (.returned false)
      else if !v.committed then .error (.returned false)
      else .ok (payments.dropLast ++ [(scriptPubKey, nLastSendAmount - v.nFeeRet - 500)])

/-- A transaction that is sent. -/
structure Sent where
  visit : Visit
  vecSend : List (CScript × CAmount)

/-- The state of the loop, with all that is sent. -/
structure State where
  stakeSent : ℕ
  mnSent : ℕ
  fMultiSendNotify : Bool
  nLastMultiSendHeight : ℤ
  sent : List Sent

def finished (stakeSent mnSent : ℕ) : Bool :=
  (decide (0 < mnSent) && decide (0 < stakeSent)) ||
    (decide (0 < stakeSent) && !w.fMultiSendMasternodeReward) ||
    (decide (0 < mnSent) && !w.fMultiSendStake)

def State.send (s : State) (v : Visit) (payments : List (CScript × CAmount)) : State where
  stakeSent := if sendMSOnStake w v.out then s.stakeSent + 1 else s.stakeSent
  mnSent := if sendMSOnStake w v.out then s.mnSent else s.mnSent + 1
  fMultiSendNotify := true
  nLastMultiSendHeight := env.tipHeight
  sent := s.sent ++ [⟨v, payments⟩]

def visit (s : State) (v : Visit) : Except (Ending × State) State :=
  if v.out.tx.depthInMainChain ≠ coinbaseMaturity + 1 then .ok s
  else if !(sendMSOnStake w v.out || sendMSonMNReward w v.out) then .ok s
  else match env.addressOf v.out.txout.scriptPubKey with
  | none => .ok s
  | some destMyAddress =>
    match attempt env w v destMyAddress with
    | .error ending => .error (ending, s)
    | .ok payments =>
      let s' := s.send env w v payments
      if finished w s'.stakeSent s'.mnSent then .error (.returned true, s') else .ok s'

def visitAll (s : State) : List Visit → Ending × State
  | [] => (.returned true, s)
  | v :: rest =>
    match visit env w s v with
    | .error r => r
    | .ok s' => visitAll s' rest

def start : State := ⟨0, 0, w.fMultiSendNotify, w.nLastMultiSendHeight, []⟩

def multiSend (vCoins : List Visit) : Ending × State :=
  if env.isInitialBlockDownload || w.isLocked then (.returned false, start w)
  else if env.tipHeight ≤ w.nLastMultiSendHeight then (.returned false, start w)
  else visitAll env w (start w) vCoins

end Loop

/-! Amounts stay far below the limit of `CAmount`. -/

section Amounts

variable {w : CWallet} {env : Env}

def InRange (n : ℤ) : Prop := 0 ≤ n ∧ n ≤ 5000000000000000

theorem inRange_zero : InRange 0 := ⟨le_rfl, by decide⟩

theorem inRange_of_moneyRange {n : CAmount} (h : moneyRange n = true) : InRange n := by
  rw [moneyRange, Bool.and_eq_true, decide_eq_true_eq, decide_eq_true_eq] at h
  exact h

theorem inRange_of_addInRange {n m nSum : CAmount} (h : addInRange n m = some nSum) :
    InRange nSum := by
  rw [addInRange] at h
  split at h
  · rename_i hrange
    cases h
    exact inRange_of_moneyRange hrange
  · cases h

/-- A sum that is in range after every step is in range. -/
theorem inRange_of_foldlM {α : Type} {f : CAmount → α → Option CAmount}
    (hf : ∀ n a m, f n a = some m → InRange m) {l : List α} {n m : CAmount} (hn : InRange n)
    (h : l.foldlM f n = some m) : InRange m := by
  induction l generalizing n with
  | nil =>
    cases h
    exact hn
  | cons a l ih =>
    rw [List.foldlM_cons] at h
    obtain ⟨k, hk, hrest⟩ := Option.bind_eq_some_iff.1 h
    exact ih (hf n a k hk) hrest

theorem inRange_of_getDebit {tx : CTransaction} {nDebit : CAmount}
    (h : w.getDebit tx = some nDebit) : InRange nDebit :=
  inRange_of_foldlM (fun _ _ _ => inRange_of_addInRange) inRange_zero h

theorem inRange_of_getCredit {tx : CWalletTx} {nCredit : CAmount}
    (h : w.getCredit env tx = some nCredit) : InRange nCredit := by
  rw [CWallet.getCredit] at h
  split at h
  · cases h
    exact inRange_zero
  · refine inRange_of_foldlM (fun n txout m hm => ?_) inRange_zero h
    split at hm
    · exact inRange_of_addInRange hm
    · cases hm

/-- The net reward is the credit less the debit. -/
theorem netReward_eq_some_iff {tx : CWalletTx} {nReward : CAmount} :
    w.netReward env tx = some nReward ↔ ∃ nCredit nDebit, w.getCredit env tx = some nCredit ∧
      w.getDebit tx.toCTransaction = some nDebit ∧ nReward = nCredit - nDebit := by
  simp only [CWallet.netReward, Option.bind_eq_bind, Option.bind_eq_some_iff, Option.some.injEq]
  have hexact : ∀ nCredit nDebit, w.getCredit env tx = some nCredit →
      w.getDebit tx.toCTransaction = some nDebit →
      toInt64 (nCredit - nDebit) = nCredit - nDebit := by
    intro nCredit nDebit hcredit hdebit
    obtain ⟨hc, hc'⟩ := inRange_of_getCredit hcredit
    obtain ⟨hd, hd'⟩ := inRange_of_getDebit hdebit
    exact toInt64_eq_self (by omega) (by omega)
  constructor
  · rintro ⟨nCredit, hcredit, nDebit, hdebit, rfl⟩
    exact ⟨nCredit, nDebit, hcredit, hdebit, hexact nCredit nDebit hcredit hdebit⟩
  · rintro ⟨nCredit, nDebit, hcredit, hdebit, rfl⟩
    exact ⟨nCredit, hcredit, nDebit, hdebit, hexact nCredit nDebit hcredit hdebit⟩

theorem percent_le (w : CWallet) {r : Recipient} (hr : r ∈ w.vMultiSend) : r.percent ≤ 100 :=
  (List.le_sum_of_mem (List.mem_map_of_mem hr)).trans w.percents

/-- No product with a percentage overflows. -/
theorem share_eq {nReward : ℤ} {percent : ℕ} (hlow : -5000000000000000 ≤ nReward)
    (hhigh : nReward ≤ 5000000000000000) (hp : percent ≤ 100) :
    share nReward percent = (nReward * percent).tdiv 100 := by
  have hpercent : (0 : ℤ) ≤ percent := Int.natCast_nonneg percent
  have hle : nReward * percent ≤ 5000000000000000 * percent :=
    Int.mul_le_mul_of_nonneg_right hhigh hpercent
  have hge : -5000000000000000 * percent ≤ nReward * percent :=
    Int.mul_le_mul_of_nonneg_right hlow hpercent
  rw [share, toInt64_eq_self (by omega) (by omega)]

theorem share_eq_of_netReward {tx : CWalletTx} {nReward : CAmount}
    (h : w.netReward env tx = some nReward) {r : Recipient} (hr : r ∈ w.vMultiSend) :
    share nReward r.percent = (nReward * r.percent).tdiv 100 := by
  obtain ⟨nCredit, nDebit, hcredit, hdebit, rfl⟩ := netReward_eq_some_iff.1 h
  obtain ⟨hc, hc'⟩ := inRange_of_getCredit hcredit
  obtain ⟨hd, hd'⟩ := inRange_of_getDebit hdebit
  exact share_eq (by omega) (by omega) (percent_le w hr)

end Amounts

/-! What the loop looks at, and what it can pay. -/

section Loop

variable (env : Env) (w : CWallet)

/-- The output is of a reward that just matured, a switch is on for it, and it has an address. -/
def considered (v : Visit) : Bool :=
  decide (v.out.tx.depthInMainChain = coinbaseMaturity + 1) &&
    (sendMSOnStake w v.out || sendMSonMNReward w v.out) &&
    (env.addressOf v.out.txout.scriptPubKey).isSome

def disabled (v : Visit) : Bool :=
  (env.addressOf v.out.txout.scriptPubKey).any fun address =>
    decide (address ∈ w.vDisabledAddresses)

/-- Nothing is in the way of a payment: the last share covers the fee with 500 on top, and the
transaction is made and accepted. -/
structure Pays (v : Visit) : Prop where
  enabled : disabled env w v = false
  covers : ∃ r nReward, w.vMultiSend.getLast? = some r ∧
    w.netReward env v.out.tx = some nReward ∧ v.nFeeRet + 500 ≤ share nReward r.percent
  created : v.created = true
  committed : v.committed = true

/-- `attempt` sends something. -/
def pays (v : Visit) : Bool :=
  match env.addressOf v.out.txout.scriptPubKey with
  | some address => (attempt env w v address).toBool
  | none => false

variable {env w}

theorem vecSend_eq (hne : w.vMultiSend ≠ []) (tx : CWalletTx) :
    vecSend env w tx = (w.netReward env tx).map fun nReward =>
      w.vMultiSend.map fun r =>
        (env.scriptForDestination r.address, share nReward r.percent) := by
  rw [vecSend]
  cases w.netReward env tx with
  | none =>
    obtain ⟨r, rest, hrest⟩ := List.exists_cons_of_ne_nil hne
    rw [hrest, List.mapM_cons]
    rfl
  | some nReward =>
    exact List.mapM_pure

theorem vecSend_nil (hnil : w.vMultiSend = []) (tx : CWalletTx) : vecSend env w tx = some [] := by
  rw [vecSend, hnil]
  rfl

/-- All that `attempt` can do where there is somebody to pay to. -/
theorem attempt_cases (env : Env) (hne : w.vMultiSend ≠ []) (v : Visit) (address : String) :
    (∃ ending, ending ≠ .outside ∧ attempt env w v address = .error ending ∧
      (address ∈ w.vDisabledAddresses ∨ ¬Pays env w v)) ∨
    ∃ payees last nReward, w.vMultiSend = payees ++ [last] ∧
      w.netReward env v.out.tx = some nReward ∧ v.nFeeRet + 500 ≤ share nReward last.percent ∧
      address ∉ w.vDisabledAddresses ∧ v.created = true ∧ v.committed = true ∧
      attempt env w v address = .ok (payees.map (fun r =>
        (env.scriptForDestination r.address, share nReward r.percent)) ++
          [(env.scriptForDestination last.address,
            share nReward last.percent - v.nFeeRet - 500)]) := by
  obtain ⟨payees, last, hlist⟩ : ∃ payees last, w.vMultiSend = payees ++ [last] :=
    ⟨_, _, (List.dropLast_append_getLast hne).symm⟩
  by_cases hdisabled : address ∈ w.vDisabledAddresses
  · exact .inl ⟨.returned false, by simp, by rw [attempt, if_pos hdisabled], .inl hdisabled⟩
  rw [attempt, if_neg hdisabled, vecSend_eq hne]
  have hlast : w.vMultiSend.getLast? = some last := by rw [hlist, List.getLast?_concat]
  cases hreward : w.netReward env v.out.tx with
  | none =>
    refine .inl ⟨.thrown, by simp, rfl, .inr fun hpays => ?_⟩
    obtain ⟨r, nReward, -, hsome, -⟩ := hpays.covers
    rw [hreward] at hsome
    cases hsome
  | some nReward =>
    simp only [Option.map_some, hlist, List.map_append, List.map_singleton, List.getLast?_concat,
      List.dropLast_concat]
    by_cases hfee : share nReward last.percent < v.nFeeRet + 500
    · refine .inl ⟨.returned false, by simp, by rw [if_pos hfee], .inr fun hpays => ?_⟩
      obtain ⟨r, n, hr, hn, hle⟩ := hpays.covers
      rw [hlast] at hr
      rw [hreward] at hn
      cases hr
      cases hn
      exact absurd hfee (not_lt_of_ge hle)
    · rw [if_neg hfee]
      cases hcreated : v.created with
      | false =>
        refine .inl ⟨.returned false, by simp, rfl, .inr fun hpays => ?_⟩
        rw [hpays.created] at hcreated
        cases hcreated
      | true =>
        cases hcommitted : v.committed with
        | false =>
          refine .inl ⟨.returned false, by simp, rfl, .inr fun hpays => ?_⟩
          rw [hpays.committed] at hcommitted
          cases hcommitted
        | true =>
          exact .inr ⟨payees, last, nReward, rfl, rfl, not_lt.1 hfee, hdisabled, rfl, rfl, rfl⟩

theorem disabled_eq {v : Visit} {address : String}
    (h : env.addressOf v.out.txout.scriptPubKey = some address) :
    disabled env w v = decide (address ∈ w.vDisabledAddresses) := by
  rw [disabled, h]
  rfl

theorem pays_iff {v : Visit} {address : String}
    (h : env.addressOf v.out.txout.scriptPubKey = some address) :
    pays env w v = true ↔ Pays env w v := by
  simp only [pays, h]
  rcases eq_or_ne w.vMultiSend [] with hnil | hne
  · refine iff_of_false ?_ fun hpays => ?_
    · rw [attempt, vecSend_nil hnil]
      split <;> simp [Except.toBool]
    · obtain ⟨r, nReward, hr, -⟩ := hpays.covers
      rw [hnil] at hr
      cases hr
  · rcases attempt_cases env hne v address with
      ⟨ending, -, heq, hwhy⟩ | ⟨payees, last, nReward, hlist, hreward, hfee, hok, hcr, hco, heq⟩
    · rw [heq]
      refine iff_of_false (by simp [Except.toBool]) fun hpays => ?_
      rcases hwhy with hmem | hnot
      · have henabled := hpays.enabled
        rw [disabled_eq h, decide_eq_false_iff_not] at henabled
        exact henabled hmem
      · exact hnot hpays
    · rw [heq]
      refine iff_of_true rfl ⟨?_, ⟨last, nReward, ?_, hreward, hfee⟩, hcr, hco⟩
      · rw [disabled_eq h, decide_eq_false_iff_not]
        exact hok
      · rw [hlist, List.getLast?_concat]

/-- The payments of one transaction are what they should be: everybody gets the configured part of
the net reward, rounded down, and the last one pays for the fee. -/
structure Right (env : Env) (w : CWallet) (x : Sent) : Prop where
  coinStake : x.visit.out.tx.isCoinStake = true
  matured : x.visit.out.tx.depthInMainChain = coinbaseMaturity + 1
  shares : ∃ nCredit nDebit payees last, w.getCredit env x.visit.out.tx = some nCredit ∧
    w.getDebit x.visit.out.tx.toCTransaction = some nDebit ∧ w.vMultiSend = payees ++ [last] ∧
    x.vecSend = payees.map (fun r => (env.scriptForDestination r.address,
      (nCredit - nDebit) * r.percent / 100)) ++ [(env.scriptForDestination last.address,
        (nCredit - nDebit) * last.percent / 100 - (x.visit.nFeeRet + 500))]

/-- A positive share is a part of a positive reward, and then the division rounds down. -/
theorem pos_of_share {n : ℤ} {percent fee : ℕ} (h : (fee : ℤ) + 500 ≤ (n * percent).tdiv 100) :
    0 < n := by
  by_contra hneg
  have hprod : n * percent ≤ 0 :=
    Int.mul_nonpos_of_nonpos_of_nonneg (not_lt.1 hneg) (Int.natCast_nonneg percent)
  have hdiv : (n * percent).tdiv 100 ≤ 0 := by
    rw [← neg_neg (n * percent), Int.neg_tdiv]
    have hnonneg := Int.tdiv_nonneg (a := -(n * percent)) (b := 100) (by omega) (by decide)
    omega
  omega

theorem isCoinStake_of_considered {v : Visit} (h : considered env w v = true) :
    v.out.tx.isCoinStake = true := by
  simp only [considered, sendMSOnStake, sendMSonMNReward, isMasternodeReward, Bool.and_eq_true,
    Bool.or_eq_true] at h
  rcases h.1.2 with hstake | hmn
  · exact hstake.1.2
  · exact hmn.2.1.1

theorem depth_of_considered {v : Visit} (h : considered env w v = true) :
    v.out.tx.depthInMainChain = coinbaseMaturity + 1 := by
  rw [considered, Bool.and_eq_true, Bool.and_eq_true, decide_eq_true_eq] at h
  exact h.1.1

theorem right_of_attempt {v : Visit} {address : String} {payments : List (CScript × CAmount)}
    (hv : considered env w v = true) (h : attempt env w v address = .ok payments) :
    Right env w ⟨v, payments⟩ := by
  rcases eq_or_ne w.vMultiSend [] with hnil | hne
  · rw [attempt, vecSend_nil hnil] at h
    split at h <;> cases h
  rcases attempt_cases env hne v address with
    ⟨ending, -, heq, -⟩ | ⟨payees, last, nReward, hlist, hreward, hfee, -, -, -, heq⟩
  · rw [heq] at h
    cases h
  rw [heq] at h
  have hshare : ∀ r ∈ w.vMultiSend, share nReward r.percent = (nReward * r.percent).tdiv 100 :=
    fun r hr => share_eq_of_netReward hreward hr
  have hlast : last ∈ w.vMultiSend := by
    rw [hlist]
    exact List.mem_append_right _ List.mem_cons_self
  have hpos : 0 < nReward := pos_of_share (hshare last hlast ▸ hfee)
  have hfloor : ∀ r ∈ w.vMultiSend, share nReward r.percent = nReward * r.percent / 100 := by
    intro r hr
    rw [hshare r hr]
    exact Int.tdiv_eq_ediv_of_nonneg (Int.mul_nonneg hpos.le (Int.natCast_nonneg _))
  obtain ⟨nCredit, nDebit, hcredit, hdebit, rfl⟩ := netReward_eq_some_iff.1 hreward
  refine ⟨isCoinStake_of_considered hv, depth_of_considered hv, nCredit, nDebit, payees, last,
    hcredit, hdebit, hlist, ?_⟩
  have hpayees : ∀ r ∈ payees, r ∈ w.vMultiSend := by
    intro r hr
    rw [hlist]
    exact List.mem_append_left _ hr
  have hmap : payees.map (fun r => (env.scriptForDestination r.address,
      share (nCredit - nDebit) r.percent)) = payees.map fun r =>
        (env.scriptForDestination r.address, (nCredit - nDebit) * r.percent / 100) :=
    List.map_congr_left fun r hr => congrArg (Prod.mk _) (hfloor r (hpayees r hr))
  have hend : share (nCredit - nDebit) last.percent - v.nFeeRet - 500 =
      (nCredit - nDebit) * last.percent / 100 - (v.nFeeRet + 500) := by
    rw [hfloor last hlast, sub_sub]
  rw [hmap, hend] at h
  exact (Except.ok.inj h).symm

/-! What one output does to the loop. -/

theorem visit_of_not {s : State} {v : Visit} (h : considered env w v = false) :
    visit env w s v = .ok s := by
  rw [visit]
  split
  · rfl
  · rename_i hdepth
    split
    · rfl
    · rename_i hkind
      cases haddress : env.addressOf v.out.txout.scriptPubKey with
      | none => rfl
      | some address =>
        rw [Bool.not_eq_true, Bool.not_eq_false'] at hkind
        rw [considered, decide_eq_true (not_not.1 hdepth), hkind, haddress] at h
        cases h

/-- An output that the loop looks at ends it, or is paid from. -/
theorem visit_cases (s : State) {v : Visit} (h : considered env w v = true) :
    (pays env w v = false ∧ ∃ ending, visit env w s v = .error (ending, s) ∧
      (ending = .outside ↔ w.vMultiSend = [] ∧ disabled env w v = false)) ∨
    (pays env w v = true ∧ w.vMultiSend ≠ [] ∧ ∃ payments, Right env w ⟨v, payments⟩ ∧
      visit env w s v = if finished w (s.send env w v payments).stakeSent
          (s.send env w v payments).mnSent then .error (.returned true, s.send env w v payments)
        else .ok (s.send env w v payments)) := by
  have hparts := h
  rw [considered, Bool.and_eq_true, Bool.and_eq_true, decide_eq_true_eq] at hparts
  obtain ⟨⟨hdepth, hkind⟩, haddress⟩ := hparts
  obtain ⟨address, haddress⟩ := Option.isSome_iff_exists.1 haddress
  rw [visit, if_neg (not_not.2 hdepth), hkind, if_neg (by decide), haddress]
  simp only [pays, haddress, disabled_eq haddress]
  rcases eq_or_ne w.vMultiSend [] with hnil | hne
  · refine .inl ?_
    rw [attempt, vecSend_nil hnil]
    split
    · rename_i hmem
      exact ⟨rfl, _, rfl, by simp [hmem]⟩
    · rename_i hmem
      exact ⟨rfl, _, rfl, by simp [hmem, hnil]⟩
  · rcases attempt_cases env hne v address with
      ⟨ending, hending, heq, -⟩ | ⟨payees, last, nReward, -, -, -, -, -, -, heq⟩
    · refine .inl ?_
      rw [heq]
      exact ⟨rfl, ending, rfl, iff_of_false hending fun hand => hne hand.1⟩
    · have hright := right_of_attempt h heq
      rw [heq]
      exact .inr ⟨rfl, hne, _, hright, rfl⟩

/-- How many of the outputs are of the one kind and of the other. -/
def enough (w : CWallet) (got : List Visit) : Bool :=
  finished w (got.countP fun v => sendMSOnStake w v.out)
    (got.countP fun v => !sendMSOnStake w v.out)

def State.got (s : State) : List Visit := s.sent.map Sent.visit

structure Counted (w : CWallet) (s : State) : Prop where
  stake : s.stakeSent = s.got.countP fun v => sendMSOnStake w v.out
  mn : s.mnSent = s.got.countP fun v => !sendMSOnStake w v.out

theorem got_send (s : State) (v : Visit) (payments : List (CScript × CAmount)) :
    (s.send env w v payments).got = s.got ++ [v] := by
  simp [State.got, State.send]

theorem Counted.send {s : State} (h : Counted w s) (env : Env) (v : Visit)
    (payments : List (CScript × CAmount)) : Counted w (s.send env w v payments) := by
  constructor <;> rw [got_send, List.countP_append] <;>
    cases hkind : sendMSOnStake w v.out <;> simp [State.send, hkind, h.stake, h.mn]

theorem Counted.finished_eq {s : State} (h : Counted w s) :
    finished w s.stakeSent s.mnSent = enough w s.got := by
  rw [enough, h.stake, h.mn]

theorem enough_monotone (w : CWallet) : Harvest.Monotone (enough w) := by
  intro l l' h
  simp only [enough, finished, List.countP_append, Bool.or_eq_true, Bool.and_eq_true,
    decide_eq_true_eq] at h ⊢
  rcases h with (⟨hmn, hstake⟩ | ⟨hstake, hswitch⟩) | ⟨hmn, hswitch⟩
  · exact .inl (.inl ⟨Nat.add_pos_left hmn _, Nat.add_pos_left hstake _⟩)
  · exact .inl (.inr ⟨Nat.add_pos_left hstake _, hswitch⟩)
  · exact .inr ⟨Nat.add_pos_left hmn _, hswitch⟩

/-- What the loop sends is what it picks. -/
theorem got_visitAll (env : Env) {s : State} (hs : Counted w s) (vs : List Visit) :
    (visitAll env w s vs).2.got =
      s.got ++ Harvest.picks (considered env w) (pays env w) (enough w) s.got vs := by
  induction vs generalizing s with
  | nil => rw [visitAll, Harvest.picks, List.append_nil]
  | cons v vs ih =>
    rw [visitAll, Harvest.picks]
    cases hv : considered env w v with
    | false =>
      rw [visit_of_not hv, if_neg Bool.false_ne_true]
      exact ih hs
    | true =>
      rw [if_pos rfl]
      rcases visit_cases s hv with ⟨hpays, ending, hvisit, -⟩ | ⟨hpays, -, payments, -, hvisit⟩
      · rw [hvisit, hpays, if_neg Bool.false_ne_true, List.append_nil]
      · have hnext := hs.send env v payments
        rw [hvisit, hpays, if_pos rfl, hnext.finished_eq, got_send]
        cases henough : enough w (s.got ++ [v]) with
        | true =>
          rw [if_pos rfl, if_pos rfl]
          exact got_send s v payments
        | false =>
          rw [if_neg Bool.false_ne_true, if_neg Bool.false_ne_true]
          refine (ih hnext).trans ?_
          rw [got_send, List.append_assoc]
          rfl

/-- Everything that is sent is right, also what was sent before the loop ended early. -/
theorem right_visitAll {s : State} (hs : ∀ x ∈ s.sent, Right env w x) (vs : List Visit) :
    ∀ x ∈ (visitAll env w s vs).2.sent, Right env w x := by
  induction vs generalizing s with
  | nil => exact hs
  | cons v vs ih =>
    rw [visitAll]
    cases hv : considered env w v with
    | false =>
      rw [visit_of_not hv]
      exact ih hs
    | true =>
      rcases visit_cases s hv with ⟨-, ending, hvisit, -⟩ | ⟨-, -, payments, hright, hvisit⟩
      · rw [hvisit]
        exact hs
      · have hnext : ∀ x ∈ (s.send env w v payments).sent, Right env w x := by
          intro x hx
          rcases List.mem_append.1 hx with hold | hnew
          · exact hs x hold
          · rw [List.mem_singleton.1 hnew]
            exact hright
        rw [hvisit]
        split_ifs
        · exact hnext
        · exact ih hnext

/-- The call reads outside of the list of payments where there is nobody to pay to, and the first
output that it looks at has an address that may send. -/
theorem visitAll_outside_iff (s : State) (vs : List Visit) :
    (visitAll env w s vs).1 = .outside ↔ w.vMultiSend = [] ∧
      ∃ v, vs.find? (considered env w) = some v ∧ disabled env w v = false := by
  induction vs generalizing s with
  | nil => simp [visitAll]
  | cons v vs ih =>
    rw [visitAll, List.find?_cons]
    cases hv : considered env w v with
    | false =>
      rw [visit_of_not hv]
      exact ih s
    | true =>
      rcases visit_cases s hv with ⟨-, ending, hvisit, hending⟩ | ⟨-, hne, payments, -, hvisit⟩
      · rw [hvisit]
        simpa using hending
      · rw [hvisit]
        split_ifs
        · simp [hne]
        · exact (ih _).trans (iff_of_false (fun hand => hne hand.1) fun hand => hne hand.1)

section Condition

variable (env w)

/-- All that is sent of the reward of one transaction. -/
def total (tx : CWalletTx) (sent : List Sent) : CAmount :=
  ((sent.filter fun x => x.visit.out.tx = tx).map fun x => (x.vecSend.map Prod.snd).sum).sum

/-- What a call is for. -/
structure ForwardsOnce (r : Ending × State) : Prop where
  inside : r.1 ≠ .outside
  right : ∀ x ∈ r.2.sent, Right env w x
  once : (r.2.sent.map fun x => x.visit.out.tx).Nodup
  bounded : ∀ x ∈ r.2.sent, ∀ nCredit nDebit, w.getCredit env x.visit.out.tx = some nCredit →
    w.getDebit x.visit.out.tx.toCTransaction = some nDebit →
      100 * total x.visit.out.tx r.2.sent ≤
        (w.vMultiSend.map Recipient.percent).sum * (nCredit - nDebit)

/-- The call returns before it looks at any output. -/
def Idle : Prop :=
  env.isInitialBlockDownload = true ∨ w.isLocked = true ∨ env.tipHeight ≤ w.nLastMultiSendHeight

/-- There is nobody to pay to, and an output that may send. -/
def PaysNobody (vCoins : List Visit) : Prop :=
  w.vMultiSend = [] ∧ ∃ v, vCoins.find? (considered env w) = some v ∧ disabled env w v = false

/-- Both switches are on, and a reward has a second output that can be paid from. All that is looked
at before is paid from, and is of the same kind. -/
structure PaysTwice (vCoins : List Visit) : Prop where
  stake : w.fMultiSendStake = true
  masternode : w.fMultiSendMasternodeReward = true
  second : ∃ before u v after, vCoins = before ++ v :: after ∧ u ∈ before ∧
    considered env w u = true ∧ considered env w v = true ∧ Pays env w v ∧
    u.out.tx = v.out.tx ∧ ∀ b ∈ before, considered env w b = true →
      Pays env w b ∧ sendMSonMNReward w b.out = sendMSonMNReward w u.out

end Condition

theorem sendMSOnStake_eq {v : Visit} (h : considered env w v = true) :
    sendMSOnStake w v.out = !sendMSonMNReward w v.out := by
  rw [considered, Bool.and_eq_true, Bool.and_eq_true, Bool.or_eq_true] at h
  cases hmn : sendMSonMNReward w v.out with
  | false => simpa [hmn] using h.1.2
  | true => simp [sendMSOnStake, hmn]

theorem switch_of_mn {v : Visit} (h : sendMSonMNReward w v.out = true) :
    w.fMultiSendMasternodeReward = true := by
  rw [sendMSonMNReward, Bool.and_eq_true] at h
  exact h.1

theorem switch_of_stake {v : Visit} (h : sendMSOnStake w v.out = true) :
    w.fMultiSendStake = true := by
  rw [sendMSOnStake, Bool.and_eq_true, Bool.and_eq_true] at h
  exact h.1.1

/-- The loop goes on exactly where both switches are on and all that is sent is of one kind. -/
theorem enough_eq_false_iff {l : List Visit} (hl : ∀ v ∈ l, considered env w v = true) {u : Visit}
    (hu : u ∈ l) : enough w l = false ↔ w.fMultiSendStake = true ∧
      w.fMultiSendMasternodeReward = true ∧
        ∀ b ∈ l, sendMSonMNReward w b.out = sendMSonMNReward w u.out := by
  have hstake := sendMSOnStake_eq (hl u hu)
  simp only [enough, finished, Bool.or_eq_false_iff, Bool.and_eq_false_iff, decide_eq_false_iff_not,
    List.countP_pos_iff, Bool.not_eq_false']
  cases hkind : sendMSonMNReward w u.out with
  | false =>
    rw [hkind, Bool.not_false] at hstake
    have hsome : ∃ a ∈ l, sendMSOnStake w a.out = true := ⟨u, hu, hstake⟩
    simp only [hsome, switch_of_stake hstake, not_true_eq_false, or_false, or_true, and_true,
      false_or, true_and, not_exists, not_and]
    rw [and_comm]
    refine and_congr_right fun _ => forall₂_congr fun b hb => ?_
    simp [sendMSOnStake_eq (hl b hb)]
  | true =>
    rw [hkind, Bool.not_true] at hstake
    have hsome : ∃ a ∈ l, (!sendMSOnStake w a.out) = true := ⟨u, hu, by simp [hstake]⟩
    simp only [hsome, switch_of_mn hkind, not_true_eq_false, or_true, and_true, false_or,
      true_and, not_exists, not_and]
    rw [and_comm]
    refine and_congr_right fun _ => forall₂_congr fun b hb => ?_
    simp [sendMSOnStake_eq (hl b hb)]

theorem pays_iff_of_considered {v : Visit} (h : considered env w v = true) :
    pays env w v = true ↔ Pays env w v := by
  rw [considered, Bool.and_eq_true] at h
  obtain ⟨address, haddress⟩ := Option.isSome_iff_exists.1 h.2
  exact pays_iff haddress

/-- The second output of `PaysTwice` is one that the loop reaches after the first. -/
theorem paysTwice_iff (vCoins : List Visit) :
    PaysTwice env w vCoins ↔ ∃ picked v u, u ∈ picked ∧ u.out.tx = v.out.tx ∧
      Harvest.Cut (considered env w) (pays env w) (enough w) [] vCoins picked v := by
  constructor
  · rintro ⟨hstake, hmn, before, u, v, after, rfl, hu, hcu, hcv, hpays, htx, hall⟩
    have hmem : u ∈ before.filter (considered env w) := List.mem_filter.2 ⟨hu, hcu⟩
    refine ⟨_, v, u, hmem, htx, before, after, rfl, rfl, hcv,
      (pays_iff_of_considered hcv).2 hpays, fun b hb hc => ?_, ?_⟩
    · exact (pays_iff_of_considered hc).2 (hall b hb hc).1
    · refine (enough_eq_false_iff (fun b hb => (List.mem_filter.1 hb).2) hmem).2
        ⟨hstake, hmn, fun b hb => ?_⟩
      obtain ⟨hb, hc⟩ := List.mem_filter.1 hb
      exact (hall b hb hc).2
  · rintro ⟨picked, v, u, hu, htx, before, after, rfl, rfl, hreached⟩
    obtain ⟨hstake, hmn, hkinds⟩ :=
      (enough_eq_false_iff (fun b hb => (List.mem_filter.1 hb).2) hu).1 hreached.few
    obtain ⟨hu, hcu⟩ := List.mem_filter.1 hu
    refine ⟨hstake, hmn, before, u, v, after, rfl, hu, hcu, hreached.wanted,
      (pays_iff_of_considered hreached.wanted).1 hreached.had, htx, fun b hb hc => ?_⟩
    exact ⟨(pays_iff_of_considered hc).1 (hreached.open_before b hb hc),
      hkinds b (List.mem_filter.2 ⟨hb, hc⟩)⟩

theorem counted_start (w : CWallet) : Counted w (start w) := ⟨rfl, rfl⟩

/-- No two transactions are sent for one reward exactly where the loop cannot pay twice. -/
theorem nodup_iff (vCoins : List Visit) :
    ((visitAll env w (start w) vCoins).2.sent.map fun x => x.visit.out.tx).Nodup ↔
      ¬PaysTwice env w vCoins := by
  have hgot : (visitAll env w (start w) vCoins).2.sent.map (fun x => x.visit.out.tx) =
      (Harvest.picks (considered env w) (pays env w) (enough w) [] vCoins).map
        fun v => v.out.tx := by
    have h := got_visitAll env (counted_start w) vCoins
    calc (visitAll env w (start w) vCoins).2.sent.map (fun x => x.visit.out.tx)
        = (visitAll env w (start w) vCoins).2.got.map fun v => v.out.tx := by
          rw [State.got, List.map_map]
          rfl
      _ = _ := congrArg (List.map fun v : Visit => v.out.tx) h
  rw [hgot, Harvest.nodup_map_iff_split, paysTwice_iff]
  have hfew : enough w [] = false := rfl
  constructor
  · rintro h ⟨picked, v, u, hu, htx, hcut⟩
    obtain ⟨rest, hrest⟩ := (Harvest.picks_split_iff (enough_monotone w) hfew).2 hcut
    exact h picked v rest hrest u hu htx
  · intro h picked v rest hrest u hu htx
    exact h ⟨picked, v, u, hu, htx,
      (Harvest.picks_split_iff (enough_monotone w) hfew).1 ⟨rest, hrest⟩⟩

/-- The shares, each rounded down, are not more than the configured part of the reward. -/
theorem sum_shares_le (n : ℤ) (l : List Recipient) :
    100 * (l.map fun r => n * r.percent / 100).sum ≤ (l.map Recipient.percent).sum * n := by
  induction l with
  | nil => simp
  | cons r l ih =>
    have hr : 100 * (n * r.percent / 100) ≤ n * r.percent := Int.mul_ediv_self_le (by decide)
    rw [List.map_cons, List.map_cons, List.sum_cons, List.sum_cons]
    calc 100 * (n * r.percent / 100 + (l.map fun r => n * r.percent / 100).sum)
        = 100 * (n * r.percent / 100) + 100 * (l.map fun r => n * r.percent / 100).sum := by
          rw [Int.mul_add]
      _ ≤ n * r.percent + (l.map Recipient.percent).sum * n := Int.add_le_add hr ih
      _ = ((r.percent + (l.map Recipient.percent).sum : ℕ) : ℤ) * n := by
          rw [Int.natCast_add, Int.add_mul, Int.mul_comm n]

theorem Right.amount_le {x : Sent} (h : Right env w x) {nCredit nDebit : CAmount}
    (hcredit : w.getCredit env x.visit.out.tx = some nCredit)
    (hdebit : w.getDebit x.visit.out.tx.toCTransaction = some nDebit) :
    100 * (x.vecSend.map Prod.snd).sum ≤
      (w.vMultiSend.map Recipient.percent).sum * (nCredit - nDebit) := by
  obtain ⟨c, d, payees, last, hc, hd, hlist, hsend⟩ := h.shares
  rw [hcredit] at hc
  rw [hdebit] at hd
  cases hc
  cases hd
  have hsum := sum_shares_le (nCredit - nDebit) w.vMultiSend
  have hle : (x.vecSend.map Prod.snd).sum ≤
      (w.vMultiSend.map fun r => (nCredit - nDebit) * r.percent / 100).sum := by
    rw [hsend, hlist]
    simp only [List.map_append, List.map_map, List.map_singleton, List.sum_append,
      List.sum_singleton]
    have hfee : (0 : ℤ) ≤ x.visit.nFeeRet := Int.natCast_nonneg _
    refine Int.add_le_add_left ?_ _
    omega
  exact (Int.mul_le_mul_of_nonneg_left hle (by decide)).trans hsum

theorem Right.bounded {sent : List Sent} (hright : ∀ x ∈ sent, Right env w x)
    (honce : (sent.map fun x => x.visit.out.tx).Nodup) {x : Sent} (hx : x ∈ sent)
    {nCredit nDebit : CAmount} (hcredit : w.getCredit env x.visit.out.tx = some nCredit)
    (hdebit : w.getDebit x.visit.out.tx.toCTransaction = some nDebit) :
    100 * total x.visit.out.tx sent ≤
      (w.vMultiSend.map Recipient.percent).sum * (nCredit - nDebit) := by
  have hfilter := Harvest.filter_eq_of_nodup_map _ honce hx
  rw [total, hfilter, List.map_singleton, List.sum_singleton]
  exact (hright x hx).amount_le hcredit hdebit

theorem multiSend_of_idle (h : Idle env w) (vCoins : List Visit) :
    multiSend env w vCoins = (.returned false, start w) := by
  rw [multiSend]
  rcases h with hdownload | hlocked | hheight
  · rw [hdownload, Bool.true_or, if_pos rfl]
  · rw [hlocked, Bool.or_true, if_pos rfl]
  · rw [if_pos hheight, ite_self]

theorem multiSend_of_not_idle (h : ¬Idle env w) (vCoins : List Visit) :
    multiSend env w vCoins = visitAll env w (start w) vCoins := by
  rw [Idle, not_or, not_or, Bool.not_eq_true, Bool.not_eq_true] at h
  rw [multiSend, h.1, h.2.1, Bool.or_false, if_neg Bool.false_ne_true, if_neg h.2.2]

/-- A call forwards a reward once exactly where it returns early, or has somebody to pay to and
meets no second output of a reward. -/
theorem forwards_once_iff (env : Env) (w : CWallet) (vCoins : List Visit) :
    ForwardsOnce env w (multiSend env w vCoins) ↔
      Idle env w ∨ (¬PaysNobody env w vCoins ∧ ¬PaysTwice env w vCoins) := by
  by_cases hidle : Idle env w
  · rw [multiSend_of_idle hidle]
    exact iff_of_true ⟨by simp, fun x hx => absurd hx List.not_mem_nil, List.nodup_nil,
      fun x hx => absurd hx List.not_mem_nil⟩ (.inl hidle)
  · rw [multiSend_of_not_idle hidle]
    have hright : ∀ x ∈ (visitAll env w (start w) vCoins).2.sent, Right env w x :=
      right_visitAll (fun x hx => absurd hx List.not_mem_nil) vCoins
    constructor
    · intro h
      refine .inr ⟨fun hnobody => ?_, (nodup_iff vCoins).1 h.once⟩
      exact h.inside ((visitAll_outside_iff (start w) vCoins).2 hnobody)
    · rintro (h | ⟨hnobody, htwice⟩)
      · exact absurd h hidle
      · have honce := (nodup_iff vCoins).2 htwice
        exact ⟨fun h => hnobody ((visitAll_outside_iff (start w) vCoins).1 h), hright, honce,
          fun x hx _ _ hcredit hdebit => Right.bounded hright honce hx hcredit hdebit⟩

end Loop

/-! A stake and a masternode reward of one wallet. -/

def stakedCoin : CTransaction where
  hash := 7
  nVersion := 1
  vin := [{ prevout := ⟨6, 0⟩ }]
  vout := [{ nValue := 100 * coin, scriptPubKey := [1] }]
  nLockTime := 0

/-- The staker gets 110 coins for the 100 that it put in, and the masternode 5. -/
def rewardTx : CWalletTx where
  hash := 8
  nVersion := 1
  vin := [{ prevout := ⟨7, 0⟩ }]
  vout := [{ nValue := 0, scriptPubKey := [] }, { nValue := 110 * coin, scriptPubKey := [1] },
    { nValue := 5 * coin, scriptPubKey := [2] }]
  nLockTime := 0
  depthInMainChain := 21

def rewardWallet : CWallet where
  isMine script := script == [1] || script == [2]
  mapWallet hash := if hash = 7 then some stakedCoin else none
  vMultiSend := [⟨"charity", 10⟩]
  percents := by decide
  fMultiSendStake := true
  fMultiSendMasternodeReward := true
  fMultiSendNotify := false
  vDisabledAddresses := []
  nLastMultiSendHeight := 900
  isLocked := false

def rewardEnv : Env where
  nMaturity := 20
  isInitialBlockDownload := false
  tipHeight := 1000
  addressOf script := if script = [1] then some "staker" else some "masternode"
  scriptForDestination _ := [3]

def rewardVisits : List Visit :=
  [⟨⟨rewardTx, 1, by decide⟩, 10000, true, true⟩, ⟨⟨rewardTx, 2, by decide⟩, 10000, true, true⟩]

/-- Ten percent of the reward of 15 coins are sent from either output. -/
theorem reward_is_sent_twice :
    (multiSend rewardEnv rewardWallet rewardVisits).2.sent.map (fun x =>
      (x.visit.out.i, x.vecSend)) = [(1, [([3], 149989500)]), (2, [([3], 149989500)])] ∧
    ¬ForwardsOnce rewardEnv rewardWallet (multiSend rewardEnv rewardWallet rewardVisits) :=
  ⟨by decide, fun h => absurd h.once (by decide)⟩

end Scrypta.MultiSend
