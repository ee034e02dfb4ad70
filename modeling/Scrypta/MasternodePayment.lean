import Mathlib.Data.List.GetD
import Scrypta.Minting
import Scrypta.PaymentQuorum
import Scrypta.Toolkit.Binary64

/-! The masternode payment of a block: the amount by the number of masternodes, the payment that
the producer of a block fills in, and the check of it. -/

namespace Scrypta.Payees

open Spork Validation PaymentVotes Binary64

/-! The table of amounts. -/

section Table

/-- The upper bounds of the coins in thousandths of the money supply, and the share of the block
value in hundredths, up to height 125000. -/
def earlyTable : List (ℕ × ℕ) :=
  [(50, 85), (100, 80), (150, 75), (200, 70), (250, 65), (300, 60), (350, 55), (400, 50),
    (450, 45), (500, 40), (550, 35), (600, 30), (650, 25), (700, 20), (750, 15)]

def earlyRest : ℕ := 10

def lateTable : List (ℕ × ℕ) :=
  [(10, 90), (20, 88), (30, 87), (40, 86), (50, 85), (60, 84), (70, 83), (80, 82), (90, 81),
    (100, 80), (110, 79), (120, 78), (130, 77), (140, 76), (150, 75), (160, 74), (170, 73),
    (180, 72), (190, 71), (200, 70), (210, 69), (220, 68), (230, 67), (240, 66), (250, 65),
    (260, 64), (270, 63), (280, 62), (290, 61), (300, 60), (310, 59), (320, 58), (330, 57),
    (340, 56), (350, 55), (363, 54), (376, 53), (389, 52), (402, 51), (415, 50), (428, 49),
    (441, 48), (454, 47), (467, 46), (480, 45), (493, 44), (506, 43), (519, 42), (532, 41),
    (545, 40), (558, 39), (571, 38), (584, 37), (597, 36), (610, 35), (623, 34), (636, 33),
    (649, 32), (662, 31), (675, 30), (688, 29), (701, 28), (714, 27), (727, 26), (740, 25),
    (753, 24), (766, 23), (779, 22), (792, 21), (805, 20), (818, 19), (831, 18), (844, 17),
    (857, 16), (870, 15), (883, 14), (896, 13), (909, 12), (922, 11), (935, 10), (945, 9),
    (961, 8), (974, 7), (987, 6), (990, 5)]

def lateRest : ℕ := 1

/-- The branch that is taken: the coins are above the bound before and not above that of the
branch. The last branch asks nothing. -/
def row (coins nMoneySupply : ℚ) : ℚ → List (ℕ × ℕ) → ℕ
  | _, [] => 0
  | low, (bound, _) :: rest =>
    let high := mul nMoneySupply (literal bound 1000)
    if coins ≤ high ∧ low < coins then 0 else row coins nMoneySupply high rest + 1

/-- The share of a branch; 0 beyond the last. -/
def share (table : List (ℕ × ℕ)) (last k : ℕ) : ℕ := (table.map Prod.snd ++ [last]).getD k 0

/-- `blockValue * share`, as an integer again. -/
def amount (blockValue : CAmount) (share : ℕ) : CAmount :=
  truncate (mul (ofInt blockValue) (literal share 100))

/-- A masternode as the list knows it after `Check`. -/
structure CMasternode where
  protocolVersion : ℤ
  sigTime : ℤ
  isEnabled : Bool
  deriving DecidableEq, Repr

/-- The node whose payments are made and checked. `winningPayee` is the script of the masternode
that `GetCurrentMasterNode(1)` gives. -/
structure Node where
  par : Params
  env : Validation.Env
  nMasternodeCountDrift : ℤ
  nMasternodeCollateralAmt : CAmount
  vMasternodes : List CMasternode
  mapMasternodeBlocks : Dict ℤ CMasternodeBlockPayees
  winningPayee : Option CScript

variable (node : Node)

def Node.size : ℤ := node.vMasternodes.length

/-- The collaterals of the masternodes, with the count of the list in place of 0. -/
def mNodeCoins (nMasternodeCount : ℤ) : CAmount :=
  toInt64 (toInt64 ((if nMasternodeCount = 0 then node.size else nMasternodeCount) *
    node.nMasternodeCollateralAmt) * coin)

def tableAt (nHeight : ℤ) : List (ℕ × ℕ) := if nHeight ≤ 125000 then earlyTable else lateTable

def restAt (nHeight : ℤ) : ℕ := if nHeight ≤ 125000 then earlyRest else lateRest

def rowOf (tip : CBlockIndex) (nHeight nMasternodeCount : ℤ) : ℕ :=
  row (ofInt (mNodeCoins node nMasternodeCount)) (ofInt (node.env.nMoneySupply tip)) 0
    (tableAt nHeight)

/-- `GetMasternodePayment` with the given tip. -/
def getMasternodePayment (tip : CBlockIndex) (nHeight : ℤ) (blockValue : CAmount)
    (nMasternodeCount : ℤ) : CAmount :=
  if nHeight ≤ 7500 then blockValue.tdiv 5
  else if node.par.nLastPOWBlock < nHeight then
    if mNodeCoins node nMasternodeCount = 0 then 0
    else amount blockValue
      (share (tableAt nHeight) (restAt nHeight) (rowOf node tip nHeight nMasternodeCount))
  else 0

end Table

/-! The producer and the check. -/

section Payment

variable (node : Node)

/-- The loop of `GetPayee`: the first payee with the most votes, above -1. -/
def topPayee : List CMasternodePayee → Option CScript × ℤ → Option CScript × ℤ
  | [], best => best
  | p :: rest, best =>
    if best.2 < p.nVotes then topPayee rest (some p.scriptPubKey, p.nVotes) else topPayee rest best

def getPayee (b : CMasternodeBlockPayees) : Option CScript := (topPayee b.vecPayments (none, -1)).1

def getBlockPayee (nBlockHeight : ℤ) : Option CScript :=
  (node.mapMasternodeBlocks.find nBlockHeight).bind getPayee

/-- An output that `resize` makes and the producer fills in. -/
def paymentOutput (payee : CScript) (nValue : CAmount) : CTxOut :=
  { CTxOut.null with scriptPubKey := payee, nValue := nValue }

/-- `CMasternodePayments::FillBlockPayee`; `none` where it reads before the first output. -/
def fillBlockPayee (txNew : CTransaction) (fProofOfStake : Bool) : Option CTransaction :=
  match node.env.chainActive.tip with
  | none => some txNew
  | some pindexPrev =>
    let blockValue := nextBlockValue node.par node.env pindexPrev
    let masternodePayment :=
      getMasternodePayment node pindexPrev (pindexPrev.height + 1) blockValue 0
    match (getBlockPayee node (pindexPrev.height + 1)).or node.winningPayee with
    | none => some txNew
    | some payee =>
      if fProofOfStake then
        txNew.vout.getLast?.map fun last => { txNew with vout := txNew.vout.dropLast ++
          [{ last with nValue := last.nValue - masternodePayment },
            paymentOutput payee masternodePayment] }
      else
        some { txNew with vout :=
          [{ txNew.vout.headD CTxOut.null with nValue := blockValue - masternodePayment },
            { txNew.vout.tail.headD CTxOut.null with
              scriptPubKey := payee
              nValue := masternodePayment }] }

/-- `none` when `ActiveProtocol` does not return. -/
def stableSize : Option ℤ :=
  (activeProtocol node.env.sporks).map fun nMinProtocol =>
    node.vMasternodes.countP fun mn => !decide (mn.protocolVersion < nMinProtocol) &&
      !(isSporkActive node.env.sporks spork8MasternodePaymentEnforcement &&
        decide (node.env.adjustedTime - mn.sigTime <
          getSporkValue node.env.sporks spork16MnWinnerMinimumAge)) && mn.isEnabled

/-- `nMasternode_Drift_Count` -/
def driftCount : Option ℤ :=
  if isSporkActive node.env.sporks spork8MasternodePaymentEnforcement then
    (stableSize node).map fun n => n + node.nMasternodeCountDrift
  else some (node.size + node.nMasternodeCountDrift)

def nMaxSignatures (vecPayments : List CMasternodePayee) : ℤ :=
  vecPayments.foldl (fun n payee =>
    if n ≤ payee.nVotes ∧ signaturesRequired ≤ payee.nVotes then payee.nVotes else n) 0

/-- `CMasternodeBlockPayees::IsTransactionValid` -/
def isTransactionValid (tip : CBlockIndex) (b : CMasternodeBlockPayees) (txNew : CTransaction) :
    Option Bool :=
  (driftCount node).map fun n =>
    let nReward := getBlockValue node.par (node.env.nMoneySupply tip) b.nBlockHeight
    let requiredMasternodePayment := getMasternodePayment node tip b.nBlockHeight nReward n
    if nMaxSignatures b.vecPayments < signaturesRequired then true
    else b.vecPayments.any fun payee =>
      decide (signaturesRequired ≤ payee.nVotes) && txNew.vout.any fun out =>
        payee.scriptPubKey == out.scriptPubKey && decide (requiredMasternodePayment ≤ out.nValue)

/-- `CMasternodePayments::IsTransactionValid` -/
def masternodePayeeValid (txNew : CTransaction) (nBlockHeight : ℤ) : Option Bool :=
  match node.mapMasternodeBlocks.find nBlockHeight with
  | none => some true
  | some b => node.env.chainActive.tip.bind fun tip => isTransactionValid node tip b txNew

/-- The checks of blocks on this node. -/
def Node.checks : Validation.Env := { node.env with
  masternodePayeeValid := masternodePayeeValid node
  getMasternodePayment := fun nHeight blockValue nMasternodeCount =>
    node.env.chainActive.tip.elim 0 fun tip =>
      getMasternodePayment node tip nHeight blockValue nMasternodeCount }

end Payment

/-! The amount falls with the row. -/

section Amounts

theorem row_mono {coins coins' nMoneySupply low : ℚ} (hlow : low < coins) (h : coins ≤ coins')
    (table : List (ℕ × ℕ)) :
    row coins nMoneySupply low table ≤ row coins' nMoneySupply low table := by
  induction table generalizing low with
  | nil => exact Nat.le_refl _
  | cons entry rest ih =>
    rw [row, row]
    by_cases hhigh : coins ≤ mul nMoneySupply (literal entry.1 1000)
    · rw [if_pos ⟨hhigh, hlow⟩]
      exact Nat.zero_le _
    · have hhigh' : ¬coins' ≤ mul nMoneySupply (literal entry.1 1000) :=
        fun hle => hhigh (h.trans hle)
      rw [if_neg fun hc => hhigh hc.1, if_neg fun hc => hhigh' hc.1]
      exact Nat.succ_le_succ (ih (not_le.mp hhigh))

theorem share_antitone {table : List (ℕ × ℕ)} {last : ℕ}
    (hsorted : (table.map Prod.snd ++ [last]).Pairwise (· ≥ ·)) {k k' : ℕ} (h : k ≤ k') :
    share table last k' ≤ share table last k := by
  unfold share
  generalize table.map Prod.snd ++ [last] = shares at hsorted ⊢
  rcases h.lt_or_eq with hlt | rfl
  · by_cases hk' : k' < shares.length
    · have hk : k < shares.length := hlt.trans hk'
      rw [List.getD_eq_getElem _ _ hk, List.getD_eq_getElem _ _ hk']
      exact List.pairwise_iff_getElem.mp hsorted k k' hk hk' hlt
    · rw [List.getD_eq_default _ _ (not_lt.mp hk')]
      exact Nat.zero_le _
  · exact Nat.le_refl _

theorem sorted_shares (nHeight : ℤ) :
    ((tableAt nHeight).map Prod.snd ++ [restAt nHeight]).Pairwise (· ≥ ·) := by
  unfold tableAt restAt
  split
  · decide
  · decide

theorem amount_mono {blockValue : CAmount} (hvalue : 0 ≤ blockValue) {share share' : ℕ}
    (h : share ≤ share') : amount blockValue share ≤ amount blockValue share' := by
  have hpos := ofInt_nonneg hvalue
  exact truncate_mono (zero_le_mul hpos (literal_nonneg _ _))
    (mul_mono_right hpos (literal_nonneg _ _) (literal_mono h))

theorem amount_zero (blockValue : CAmount) : amount blockValue 0 = 0 := by
  simp [amount, literal, mul, Binary64.round, truncate]

theorem nSubsidy_nonneg (nHeight : ℤ) : 0 ≤ nSubsidy nHeight := by
  have hif : ∀ {c : Prop} [Decidable c] {x y : CAmount}, 0 ≤ x → 0 ≤ y →
      0 ≤ (if c then x else y) := by
    intro c _ x y hx hy
    split
    · exact hx
    · exact hy
  unfold nSubsidy
  repeat refine hif (by decide) ?_
  decide

theorem getBlockValue_nonneg (par : Params) (nMoneySupply : CAmount) (nHeight : ℤ) :
    0 ≤ getBlockValue par nMoneySupply nHeight := by
  unfold getBlockValue
  simp only
  split
  · exact Int.le_refl 0
  · next hroom =>
    split
    · exact Int.sub_nonneg_of_le (not_le.mp hroom).le
    · exact nSubsidy_nonneg _

variable {node : Node} {tip : CBlockIndex}

/-- The row of the table, and the row after the last where there are no coins. -/
def payRow (node : Node) (tip : CBlockIndex) (nHeight nMasternodeCount : ℤ) : ℕ :=
  if mNodeCoins node nMasternodeCount = 0 then (tableAt nHeight).length + 1
  else rowOf node tip nHeight nMasternodeCount

/-- The amount in a row of the table. -/
def rowAmount (nHeight : ℤ) (blockValue : CAmount) (k : ℕ) : CAmount :=
  amount blockValue (share (tableAt nHeight) (restAt nHeight) k)

theorem rowAmount_antitone {nHeight : ℤ} {blockValue : CAmount} (hvalue : 0 ≤ blockValue)
    {k k' : ℕ} (h : k ≤ k') : rowAmount nHeight blockValue k' ≤ rowAmount nHeight blockValue k :=
  amount_mono hvalue (share_antitone (sorted_shares nHeight) h)

theorem getMasternodePayment_eq {nHeight : ℤ} (hearly : ¬nHeight ≤ 7500)
    (hpow : node.par.nLastPOWBlock < nHeight) (blockValue : CAmount) (nMasternodeCount : ℤ) :
    getMasternodePayment node tip nHeight blockValue nMasternodeCount =
      rowAmount nHeight blockValue (payRow node tip nHeight nMasternodeCount) := by
  rw [getMasternodePayment, if_neg hearly, if_pos hpow, payRow, rowAmount]
  split
  · have hshare : share (tableAt nHeight) (restAt nHeight) ((tableAt nHeight).length + 1) = 0 :=
      List.getD_eq_default _ _ (by simp)
    rw [hshare, amount_zero]
  · rfl

/-- More masternodes do not come to a row further up, as long as the coins fit in 64 bits. -/
theorem payRow_mono {nHeight n n' : ℤ} (hpos : 0 < mNodeCoins node n)
    (h : mNodeCoins node n ≤ mNodeCoins node n') :
    payRow node tip nHeight n ≤ payRow node tip nHeight n' := by
  rw [payRow, payRow, if_neg hpos.ne', if_neg (hpos.trans_le h).ne']
  exact row_mono (ofInt_pos hpos) (ofInt_mono hpos.le h) _

end Amounts

/-! The votes. -/

section Votes

/-- Six masternodes voted for a payee. -/
def HasQuorum (vecPayments : List CMasternodePayee) : Prop :=
  ∃ payee ∈ vecPayments, signaturesRequired ≤ payee.nVotes

theorem le_nMaxSignatures_iff (vecPayments : List CMasternodePayee) :
    signaturesRequired ≤ nMaxSignatures vecPayments ↔ HasQuorum vecPayments := by
  have hfold : ∀ n : ℤ, signaturesRequired ≤ vecPayments.foldl (fun n payee =>
      if n ≤ payee.nVotes ∧ signaturesRequired ≤ payee.nVotes then payee.nVotes else n) n ↔
        signaturesRequired ≤ n ∨ HasQuorum vecPayments := by
    induction vecPayments with
    | nil => intro n; simp [HasQuorum]
    | cons payee rest ih =>
      intro n
      have hcons : HasQuorum (payee :: rest) ↔
          signaturesRequired ≤ payee.nVotes ∨ HasQuorum rest := by simp [HasQuorum]
      rw [List.foldl_cons, ih, hcons, ← or_assoc]
      refine or_congr ?_ Iff.rfl
      split
      · next h => exact ⟨fun _ => Or.inr h.2, fun _ => h.2⟩
      · next h =>
        refine ⟨Or.inl, fun hor => hor.elim id fun hvotes => ?_⟩
        have hlt : ¬n ≤ payee.nVotes := fun hle => h ⟨hle, hvotes⟩
        omega
  rw [nMaxSignatures, hfold 0]
  exact or_iff_right (by decide)

theorem topPayee_spec (vecPayments : List CMasternodePayee) (best : Option CScript × ℤ) :
    best.2 ≤ (topPayee vecPayments best).2 ∧
      (∀ payee ∈ vecPayments, payee.nVotes ≤ (topPayee vecPayments best).2) ∧
      (topPayee vecPayments best = best ∨ ∃ payee ∈ vecPayments,
        topPayee vecPayments best = (some payee.scriptPubKey, payee.nVotes)) := by
  induction vecPayments generalizing best with
  | nil => exact ⟨Int.le_refl _, by simp, Or.inl rfl⟩
  | cons p rest ih =>
    rw [topPayee]
    split
    · next hlt =>
      obtain ⟨hle, hall, htop⟩ := ih (some p.scriptPubKey, p.nVotes)
      refine ⟨hlt.le.trans hle, List.forall_mem_cons.mpr ⟨hle, hall⟩, Or.inr ?_⟩
      rcases htop with hsame | ⟨payee, hpayee, htop⟩
      · exact ⟨p, List.mem_cons_self, hsame⟩
      · exact ⟨payee, List.mem_cons_of_mem _ hpayee, htop⟩
    · next hge =>
      obtain ⟨hle, hall, htop⟩ := ih best
      refine ⟨hle, List.forall_mem_cons.mpr ⟨(not_lt.mp hge).trans hle, hall⟩, htop.imp id ?_⟩
      rintro ⟨payee, hpayee, htop⟩
      exact ⟨payee, List.mem_cons_of_mem _ hpayee, htop⟩

/-- With a quorum, the payee with the most votes has one. -/
theorem getPayee_of_quorum {b : CMasternodeBlockPayees} (h : HasQuorum b.vecPayments) :
    ∃ payee ∈ b.vecPayments, signaturesRequired ≤ payee.nVotes ∧
      getPayee b = some payee.scriptPubKey := by
  obtain ⟨p, hp, hvotes⟩ := h
  obtain ⟨-, hall, htop⟩ := topPayee_spec b.vecPayments (none, -1)
  have hle := hvotes.trans (hall p hp)
  rcases htop with hsame | ⟨payee, hpayee, htop⟩
  · rw [hsame] at hle
    exact absurd hle (by decide)
  · rw [htop] at hle
    exact ⟨payee, hpayee, hle, by rw [getPayee, htop]⟩

/-- Each entry is stored under its own height. -/
def Keyed (blocks : Dict ℤ CMasternodeBlockPayees) : Prop :=
  ∀ nBlockHeight b, blocks.find nBlockHeight = some b → b.nBlockHeight = nBlockHeight

theorem Keyed.add {orc : PaymentVotes.Oracles} {s s' : State} {w : CMasternodePaymentWinner}
    (hkeyed : Keyed s.mapMasternodeBlocks) (h : Adds orc s w s') :
    Keyed s'.mapMasternodeBlocks := by
  intro nBlockHeight b hb
  rw [h.blocks, Dict.find_modify, Dict.find_insert, Dict.find_insert, if_pos rfl] at hb
  split at hb
  · next hheight =>
    obtain ⟨b₀, hb₀, rfl⟩ := Option.map_eq_some_iff.mp hb
    obtain rfl := Option.some.inj hb₀
    cases hfind : s.mapMasternodeBlocks.find w.nBlockHeight with
    | none => exact hheight.symm
    | some b₁ => exact (hkeyed _ _ hfind).trans hheight.symm
  · exact hkeyed nBlockHeight b hb

theorem Keyed.next {orc : PaymentVotes.Oracles} {env : PaymentVotes.Env} {e : Event}
    {t t' : Tracked} (hkeyed : Keyed t.state.mapMasternodeBlocks)
    (h : t.next orc env e = some t') : Keyed t'.state.mapMasternodeBlocks := by
  obtain ⟨s', hs', rfl⟩ := Option.map_eq_some_iff.mp h
  cases e with
  | mnw w =>
    obtain ⟨⟨s₁, b⟩, hprocess, rfl⟩ := Option.map_eq_some_iff.mp hs'
    rcases processWinner_stores hprocess with ⟨-, hadds⟩ | ⟨-, hsame⟩
    · exact hkeyed.add hadds
    · exact hsame.2 ▸ hkeyed
  | block nBlockHeight =>
    rcases processBlock_stores hs' with ⟨w, -, hadds⟩ | ⟨-, hsame⟩
    · exact hkeyed.add hadds
    · exact hsame.2 ▸ hkeyed
  | clean =>
    obtain rfl := Option.some.inj hs'
    exact fun h b hb => hkeyed h b ((cleans_cleanPaymentList env t.state).2.2 h b hb)

/-- So it is in every state of a run of the payment votes. -/
theorem keyed_run {orc : PaymentVotes.Oracles} {inputs : List Input} {n : PaymentVotes.Node}
    (h : PaymentVotes.Node.run orc inputs = some n) :
    Keyed n.live.state.mapMasternodeBlocks ∧ Keyed n.disk.state.mapMasternodeBlocks := by
  have hinit : Keyed Tracked.init.state.mapMasternodeBlocks := fun h b hb => by
    change (Dict.empty : Dict ℤ CMasternodeBlockPayees).find h = some b at hb
    rw [Dict.find_empty] at hb
    cases hb
  induction inputs using List.reverseRecOn generalizing n with
  | nil =>
    obtain rfl := Option.some.inj h
    exact ⟨hinit, hinit⟩
  | append_singleton inputs i ih =>
    rw [Node.run_concat] at h
    obtain ⟨mid, hmid, hstep⟩ := Option.bind_eq_some_iff.mp h
    obtain ⟨hlive, hdisk⟩ := ih hmid
    cases i with
    | event env e =>
      obtain ⟨t, ht, rfl⟩ := Option.map_eq_some_iff.mp hstep
      exact ⟨hlive.next ht, hdisk⟩
    | dump =>
      obtain rfl := Option.some.inj hstep
      exact ⟨hlive, hlive⟩
    | restart env readable =>
      obtain rfl := Option.some.inj hstep
      refine ⟨fun nBlockHeight b hb => ?_, hdisk⟩
      have hfound := (cleans_cleanPaymentList env _).2.2 nBlockHeight b hb
      cases readable with
      | true => exact hdisk nBlockHeight b hfound
      | false => exact hinit nBlockHeight b hfound

theorem keyed_betweenVotes : ∃ n, PaymentVotes.Node.run sampleOracles betweenVotes = some n ∧
    Keyed n.live.state.mapMasternodeBlocks ∧ Keyed n.disk.state.mapMasternodeBlocks := by
  obtain ⟨n, hn⟩ : ∃ n, PaymentVotes.Node.run sampleOracles betweenVotes = some n := ⟨_, rfl⟩
  exact ⟨n, hn, keyed_run hn⟩

end Votes

/-! The producer against the check. -/

section Agreement

variable {node : Node} {tip : CBlockIndex}

/-- The amount that the check asks for. -/
def requiredPayment (node : Node) (tip : CBlockIndex) (nMasternodeCount : ℤ) : CAmount :=
  getMasternodePayment node tip (tip.height + 1) (nextBlockValue node.par node.env tip)
    nMasternodeCount

/-- The last output pays a payee with six votes at least what the check asks for. -/
def PaysQuorum (node : Node) (tip : CBlockIndex) (b : CMasternodeBlockPayees)
    (tx : CTransaction) : Prop :=
  ∃ out payee n, tx.vout.getLast? = some out ∧ payee ∈ b.vecPayments ∧
    signaturesRequired ≤ payee.nVotes ∧ out.scriptPubKey = payee.scriptPubKey ∧
    driftCount node = some n ∧ requiredPayment node tip n ≤ out.nValue

/-- Where the height has an entry, `ActiveProtocol` returns if it is asked. Where a payee of it
has six votes, the amount does not depend on the count at this height, or the list of masternodes
does not come to a lower row of the table than the count of the check, or the block value is so
small that the two rows give the same. -/
def Agrees (node : Node) (tip : CBlockIndex) : Prop :=
  ∀ b, node.mapMasternodeBlocks.find (tip.height + 1) = some b →
    (isSporkActive node.env.sporks spork8MasternodePaymentEnforcement = true →
      activeProtocol node.env.sporks ≠ none) ∧
    (HasQuorum b.vecPayments → ∀ n, driftCount node = some n →
      (tip.height + 1 : ℤ) ≤ 7500 ∨ (tip.height + 1 : ℤ) ≤ node.par.nLastPOWBlock ∨
        payRow node tip (tip.height + 1) 0 ≤ payRow node tip (tip.height + 1) n ∨
        rowAmount (tip.height + 1) (nextBlockValue node.par node.env tip)
            (payRow node tip (tip.height + 1) 0) =
          rowAmount (tip.height + 1) (nextBlockValue node.par node.env tip)
            (payRow node tip (tip.height + 1) n))

theorem requiredPayment_le_iff (n : ℤ) :
    requiredPayment node tip n ≤ requiredPayment node tip 0 ↔
      (tip.height + 1 : ℤ) ≤ 7500 ∨ (tip.height + 1 : ℤ) ≤ node.par.nLastPOWBlock ∨
        payRow node tip (tip.height + 1) 0 ≤ payRow node tip (tip.height + 1) n ∨
        rowAmount (tip.height + 1) (nextBlockValue node.par node.env tip)
            (payRow node tip (tip.height + 1) 0) =
          rowAmount (tip.height + 1) (nextBlockValue node.par node.env tip)
            (payRow node tip (tip.height + 1) n) := by
  have hvalue : 0 ≤ nextBlockValue node.par node.env tip := getBlockValue_nonneg _ _ _
  by_cases hearly : (tip.height + 1 : ℤ) ≤ 7500
  · refine iff_of_true ?_ (Or.inl hearly)
    rw [requiredPayment, requiredPayment, getMasternodePayment, getMasternodePayment,
      if_pos hearly, if_pos hearly]
  · by_cases hpow : (tip.height + 1 : ℤ) ≤ node.par.nLastPOWBlock
    · refine iff_of_true ?_ (Or.inr (Or.inl hpow))
      rw [requiredPayment, requiredPayment, getMasternodePayment, getMasternodePayment,
        if_neg hearly, if_neg hearly, if_neg (not_lt.mpr hpow), if_neg (not_lt.mpr hpow)]
    · rw [or_iff_right hearly, or_iff_right hpow, requiredPayment, requiredPayment,
        getMasternodePayment_eq hearly (not_le.mp hpow),
        getMasternodePayment_eq hearly (not_le.mp hpow)]
      constructor
      · intro hle
        by_cases hrow : payRow node tip (tip.height + 1) 0 ≤ payRow node tip (tip.height + 1) n
        · exact Or.inl hrow
        · exact Or.inr (le_antisymm (rowAmount_antitone hvalue (not_le.mp hrow).le) hle)
      · rintro (hrow | heq)
        · exact rowAmount_antitone hvalue hrow
        · exact heq.symm.le

theorem driftCount_eq_none :
    driftCount node = none ↔ isSporkActive node.env.sporks spork8MasternodePaymentEnforcement =
      true ∧ activeProtocol node.env.sporks = none := by
  unfold driftCount stableSize
  split
  · next h => simp [h]
  · next h => simp [h]

theorem paymentOutput_nValue (payee : CScript) (nValue : CAmount) :
    (paymentOutput payee nValue).nValue = nValue := rfl

/-- With a quorum, the producer pays a payee of it what the table gives for the list. -/
theorem fillBlockPayee_of_quorum {txNew tx : CTransaction} {b : CMasternodeBlockPayees}
    (htip : node.env.chainActive.tip = some tip)
    (hfill : fillBlockPayee node txNew true = some tx)
    (hb : node.mapMasternodeBlocks.find (tip.height + 1) = some b)
    (hquorum : HasQuorum b.vecPayments) :
    ∃ out, tx.vout.getLast? = some out ∧ out.nValue = requiredPayment node tip 0 ∧
      ∃ payee ∈ b.vecPayments, signaturesRequired ≤ payee.nVotes ∧
        out.scriptPubKey = payee.scriptPubKey := by
  obtain ⟨payee, hpayee, hvotes, hget⟩ := getPayee_of_quorum hquorum
  have hpayees : (getBlockPayee node (tip.height + 1)).or node.winningPayee =
      some payee.scriptPubKey := by
    rw [getBlockPayee, hb, Option.bind_some, hget, Option.some_or]
  unfold fillBlockPayee at hfill
  simp only [htip, hpayees, if_true] at hfill
  obtain ⟨last, -, rfl⟩ := Option.map_eq_some_iff.mp hfill
  refine ⟨paymentOutput payee.scriptPubKey (requiredPayment node tip 0), ?_,
    paymentOutput_nValue _ _, payee, hpayee, hvotes, rfl⟩
  rw [requiredPayment, List.getLast?_append, List.getLast?_cons_cons, List.getLast?_singleton,
    Option.some_or]

/-- The check of the block on a synced node asks for the payment of the recorded payees. -/
theorem isBlockPayeeValid_payment {block : CBlock} {tx : CTransaction} {nHeight : ℤ}
    (hsynced : node.env.isSynced = true) (hplain : isSuperblock node.env nHeight = some false)
    (htx : payingTransaction node.par block nHeight = some tx) :
    isBlockPayeeValid node.par node.checks block nHeight = .ok true ↔
      ∃ fValid, masternodePayeeValid node tx nHeight = some fValid ∧
        (fValid = true ∨
          isSporkActive node.env.sporks spork8MasternodePaymentEnforcement = false) := by
  have hsuper : isSuperblock node.checks nHeight = some false := hplain
  have hsynced' : node.checks.isSynced = true := hsynced
  have hpure (b b' : Bool) : (pure b : Except Refusal Bool) = .ok b' ↔ b = b' := by
    simp [Pure.pure, Except.pure]
  simp only [isBlockPayeeValid, hsynced', Bool.not_true, Bool.false_eq_true, if_false, bind_ok,
    present_ok, hsuper, returned_ok, htx]
  constructor
  · rintro ⟨tx', htx', b, hb, h⟩
    obtain rfl := Option.some.inj htx'
    obtain rfl := Option.some.inj hb
    obtain ⟨fValid, hvalid, h⟩ := bind_ok.mp h
    refine ⟨fValid, returned_ok.mp hvalid, ?_⟩
    have hor := (hpure _ _).mp h
    rwa [Bool.or_eq_true, Bool.not_eq_true'] at hor
  · rintro ⟨fValid, hvalid, h⟩
    refine ⟨tx, rfl, false, rfl, bind_ok.mpr ⟨fValid, returned_ok.mpr hvalid, (hpure _ _).mpr ?_⟩⟩
    rw [Bool.or_eq_true, Bool.not_eq_true']
    exact h

/-- A coinstake that the node completes at a height without a budget payment passes its own check,
and pays a payee with six votes what the check asks for, if and only if the count of the check
agrees with the list of masternodes. -/
theorem own_payment_valid_iff (node : Node) (tip : CBlockIndex) (txNew tx : CTransaction)
    (block : CBlock) (hsynced : node.env.isSynced = true)
    (htip : node.env.chainActive.tip = some tip)
    (hplain : isSuperblock node.env (tip.height + 1) = some false)
    (hkeyed : Keyed node.mapMasternodeBlocks) (hfill : fillBlockPayee node txNew true = some tx)
    (htx : payingTransaction node.par block (tip.height + 1) = some tx) :
    (isBlockPayeeValid node.par node.checks block (tip.height + 1) = .ok true ∧
        ∀ b, node.mapMasternodeBlocks.find (tip.height + 1) = some b → HasQuorum b.vecPayments →
          PaysQuorum node tip b tx) ↔
      Agrees node tip := by
  rw [isBlockPayeeValid_payment hsynced hplain htx]
  constructor
  · rintro ⟨⟨fValid, hvalid, -⟩, hpays⟩ b hb
    have hdrift : driftCount node ≠ none := by
      intro hnone
      rw [masternodePayeeValid, hb] at hvalid
      simp only [htip, Option.bind_some, isTransactionValid, hnone] at hvalid
      cases hvalid
    refine ⟨fun h8 hnone => hdrift (driftCount_eq_none.mpr ⟨h8, hnone⟩), fun hquorum n hn => ?_⟩
    obtain ⟨out, hlast, hvalue, -⟩ := fillBlockPayee_of_quorum htip hfill hb hquorum
    obtain ⟨out', _, n', hlast', -, -, -, hn', hle⟩ := hpays b hb hquorum
    obtain rfl := Option.some.inj (hlast.symm.trans hlast')
    obtain rfl := Option.some.inj (hn.symm.trans hn')
    rw [hvalue] at hle
    exact (requiredPayment_le_iff n).mp hle
  · intro hagrees
    have hpays : ∀ b, node.mapMasternodeBlocks.find (tip.height + 1) = some b →
        HasQuorum b.vecPayments → PaysQuorum node tip b tx := by
      intro b hb hquorum
      obtain ⟨hreturns, hrows⟩ := hagrees b hb
      obtain ⟨out, hlast, hvalue, payee, hpayee, hvotes, hscript⟩ :=
        fillBlockPayee_of_quorum htip hfill hb hquorum
      cases hn : driftCount node with
      | none =>
        obtain ⟨h8, hnone⟩ := driftCount_eq_none.mp hn
        exact absurd hnone (hreturns h8)
      | some n =>
        refine ⟨out, payee, n, hlast, hpayee, hvotes, hscript, hn, ?_⟩
        rw [hvalue]
        exact (requiredPayment_le_iff n).mpr (hrows hquorum n hn)
    refine ⟨?_, hpays⟩
    rw [masternodePayeeValid]
    cases hb : node.mapMasternodeBlocks.find (tip.height + 1) with
    | none => exact ⟨true, rfl, Or.inl rfl⟩
    | some b =>
      simp only [htip, Option.bind_some]
      cases hn : driftCount node with
      | none =>
        obtain ⟨h8, hnone⟩ := driftCount_eq_none.mp hn
        exact absurd hnone ((hagrees b hb).1 h8)
      | some n =>
        refine ⟨true, ?_, Or.inl rfl⟩
        rw [isTransactionValid, hn, Option.map_some]
        simp only
        split
        · rfl
        · next hmany =>
          have hquorum := (le_nMaxSignatures_iff _).mp (not_lt.mp hmany)
          obtain ⟨out, payee, n', hlast, hpayee, hvotes, hscript, hn', hle⟩ := hpays b hb hquorum
          obtain rfl := Option.some.inj (hn.symm.trans hn')
          rw [hkeyed _ _ hb]
          refine congrArg some (List.any_eq_true.mpr ⟨payee, hpayee, ?_⟩)
          rw [Bool.and_eq_true, List.any_eq_true]
          refine ⟨decide_eq_true hvotes, out, List.mem_of_getLast? hlast, ?_⟩
          rw [Bool.and_eq_true]
          exact ⟨beq_iff_eq.mpr hscript.symm, decide_eq_true hle⟩

end Agreement

/-! At height 200000, with 11 million coins, a node knows thirty masternodes, all too young for
the stable count. The table gives them 85 percent, and twenty masternodes 87 percent. -/

section Samples

theorem height_plainChain_succ (n : ℕ) :
    ((plainChain n).height + 1 : ℤ) = n + 1 := by
  induction n with
  | zero => rfl
  | succ n ih =>
    have hheight : (plainChain (n + 1)).height = (plainChain n).height + 1 := rfl
    rw [hheight]
    push_cast
    omega

def paidBlocks : Dict ℤ CMasternodeBlockPayees :=
  Dict.empty.set 200001 ⟨200001, [⟨[0x52], 6⟩]⟩

theorem keyed_paidBlocks : Keyed paidBlocks := by
  intro nBlockHeight b hb
  obtain ⟨rfl, rfl⟩ | ⟨-, hb⟩ := Dict.find_set_cases hb
  · rfl
  · rw [Dict.find_empty] at hb
    cases hb

/-- `n` masternodes that were announced at the time `sigTime`. -/
def listedNode (tip : CBlockIndex) (n : ℕ) (sigTime : ℤ) : Node where
  par := mainParams
  env := { plainEnv tip (Dict.empty.set spork8MasternodePaymentEnforcement
    ⟨[], spork8MasternodePaymentEnforcement, 1500000000, 0⟩) Dict.empty with
      nMoneySupply := fun _ => 11000000 * coin }
  nMasternodeCountDrift := 20
  nMasternodeCollateralAmt := 15000
  vMasternodes := List.replicate n ⟨70920, sigTime, true⟩
  mapMasternodeBlocks := paidBlocks
  winningPayee := none

def stakeTemplate : CTransaction :=
  spendOf 501 ⟨77, 0⟩ [⟨0, [], -10⟩, ⟨10009 * coin, [0x51], -10⟩]

/-- The template with the payment, which is taken from its last output. -/
def paidStake (nValue : CAmount) : CTransaction :=
  { stakeTemplate with vout := [⟨0, [], -10⟩, ⟨10009 * coin - nValue, [0x51], -10⟩,
    paymentOutput [0x52] nValue] }

variable {tip : CBlockIndex}

theorem fill_listedNode (hheight : (tip.height + 1 : ℤ) = 200001) (n : ℕ) (sigTime : ℤ) :
    fillBlockPayee (listedNode tip n sigTime) stakeTemplate true = some (paidStake
      (getMasternodePayment (listedNode tip n sigTime) tip 200001 (9 * coin) 0)) := by
  have htip : (listedNode tip n sigTime).env.chainActive.tip = some tip := CChain.tip_ofTip _
  have hvalue : nextBlockValue (listedNode tip n sigTime).par (listedNode tip n sigTime).env
      tip = 9 * coin := by
    rw [nextBlockValue, hheight]
    change getBlockValue mainParams (11000000 * coin) 200001 = 9 * coin
    decide
  have hpayee : (getBlockPayee (listedNode tip n sigTime) 200001).or
      (listedNode tip n sigTime).winningPayee = some [0x52] := by
    change ((paidBlocks.find 200001).bind getPayee).or none = some [0x52]
    decide
  unfold fillBlockPayee
  simp only [htip, hheight, hvalue, hpayee, if_true]
  rfl

theorem payment_listedNode (n : ℕ) (sigTime nMasternodeCount : ℤ) :
    getMasternodePayment (listedNode tip n sigTime) tip 200001 (9 * coin) nMasternodeCount =
      getMasternodePayment (listedNode (plainChain 0) n sigTime) (plainChain 0) 200001 (9 * coin)
        nMasternodeCount := rfl

theorem payeeValid_listedNode (n : ℕ) (sigTime : ℤ) (tx : CTransaction) :
    masternodePayeeValid (listedNode tip n sigTime) tx 200001 =
      isTransactionValid (listedNode (plainChain 0) n sigTime) (plainChain 0)
        ⟨200001, [⟨[0x52], 6⟩]⟩ tx := by
  have hfind : (listedNode tip n sigTime).mapMasternodeBlocks.find 200001 =
      some ⟨200001, [⟨[0x52], 6⟩]⟩ := by
    change paidBlocks.find 200001 = _
    decide
  have htip : (listedNode tip n sigTime).env.chainActive.tip = some tip := CChain.tip_ofTip _
  rw [masternodePayeeValid, hfind]
  simp only [htip, Option.bind_some]
  rfl

def paidBlock : CBlock := plainBlock 9 8 [coinbaseOf 500 [], paidStake 765000000]

theorem paying_paidBlock {nHeight : ℤ} (h : nHeight = 200001) :
    payingTransaction mainParams paidBlock nHeight = some (paidStake 765000000) := by
  rw [h]
  rfl

/-- The producer pays 7.65 coins and the check of the same node asks for 7.83. -/
theorem young_list_refused (hheight : (tip.height + 1 : ℤ) = 200001) :
    (listedNode tip 30 1600000000).env.isSynced = true ∧
      isSuperblock (listedNode tip 30 1600000000).env 200001 = some false ∧
      ∃ tx, fillBlockPayee (listedNode tip 30 1600000000) stakeTemplate true = some tx ∧
        payingTransaction mainParams paidBlock 200001 = some tx ∧
        isBlockPayeeValid mainParams (listedNode tip 30 1600000000).checks paidBlock 200001 ≠
          .ok true := by
  have hplain : isSuperblock (listedNode tip 30 1600000000).env 200001 = some false := by
    change isSuperblock (listedNode (plainChain 0) 30 1600000000).env 200001 = some false
    decide
  have hpaid : getMasternodePayment (listedNode (plainChain 0) 30 1600000000) (plainChain 0)
      200001 (9 * coin) 0 = 765000000 := by
    with_unfolding_all decide
  refine ⟨rfl, hplain, paidStake 765000000, ?_, paying_paidBlock rfl, fun hvalid => ?_⟩
  · rw [fill_listedNode hheight, payment_listedNode, hpaid]
  · obtain ⟨fValid, hpayee, hor⟩ := (@isBlockPayeeValid_payment
      (listedNode tip 30 1600000000) _ _ _ rfl hplain (paying_paidBlock rfl)).mp hvalid
    have hrefused : isTransactionValid (listedNode (plainChain 0) 30 1600000000) (plainChain 0)
        ⟨200001, [⟨[0x52], 6⟩]⟩ (paidStake 765000000) = some false := by
      with_unfolding_all decide
    have henforced : isSporkActive (listedNode tip 30 1600000000).env.sporks
        spork8MasternodePaymentEnforcement = true := by
      change isSporkActive (listedNode (plainChain 0) 30 1600000000).env.sporks _ = true
      decide
    rw [payeeValid_listedNode, hrefused, Option.some.injEq] at hpayee
    rw [henforced, ← hpayee] at hor
    simp at hor

/-- The masternodes are old enough: the check counts fifty, which comes to a lower row. -/
theorem agrees_listedNode (hheight : (tip.height + 1 : ℤ) = 200001) :
    Agrees (listedNode tip 30 0) tip := by
  intro b hb
  refine ⟨fun _ => ?_, fun _ n hn => Or.inr (Or.inr (Or.inl ?_))⟩
  · change activeProtocol (listedNode (plainChain 0) 30 0).env.sporks ≠ none
    decide
  · have hdrift : driftCount (listedNode (plainChain 0) 30 0) = some 50 := by decide
    obtain rfl : n = 50 := Option.some.inj (hn.symm.trans hdrift)
    have hcoins : 0 < mNodeCoins (listedNode (plainChain 0) 30 0) 0 := by decide
    have hmore : mNodeCoins (listedNode (plainChain 0) 30 0) 0 ≤
        mNodeCoins (listedNode (plainChain 0) 30 0) 50 := by
      decide
    rw [hheight]
    exact payRow_mono hcoins hmore

def tallTip : CBlockIndex := plainChain 200000

theorem height_tallTip : (tallTip.height + 1 : ℤ) = 200001 := by
  rw [tallTip, height_plainChain_succ]
  norm_num

theorem own_payment_refused :
    (listedNode tallTip 30 1600000000).env.isSynced = true ∧
      isSuperblock (listedNode tallTip 30 1600000000).env 200001 = some false ∧
      ∃ tx, fillBlockPayee (listedNode tallTip 30 1600000000) stakeTemplate true = some tx ∧
        payingTransaction mainParams paidBlock 200001 = some tx ∧
        isBlockPayeeValid mainParams (listedNode tallTip 30 1600000000).checks paidBlock 200001 ≠
          .ok true :=
  young_list_refused height_tallTip

theorem fill_oldList (hheight : (tip.height + 1 : ℤ) = 200001) :
    fillBlockPayee (listedNode tip 30 0) stakeTemplate true = some (paidStake 765000000) := by
  have hpaid : getMasternodePayment (listedNode (plainChain 0) 30 0) (plainChain 0) 200001
      (9 * coin) 0 = 765000000 := by
    with_unfolding_all decide
  rw [fill_listedNode hheight, payment_listedNode, hpaid]

theorem isSuperblock_listedNode (hheight : (tip.height + 1 : ℤ) = 200001) (n : ℕ) :
    isSuperblock (listedNode tip n 0).env (tip.height + 1) = some false := by
  rw [hheight]
  change isSuperblock (listedNode (plainChain 0) 0 0).env 200001 = some false
  decide

theorem own_payment_valid_sample :
    isBlockPayeeValid mainParams (listedNode tallTip 30 0).checks paidBlock
      (tallTip.height + 1) = .ok true :=
  ((own_payment_valid_iff (listedNode tallTip 30 0) tallTip stakeTemplate (paidStake 765000000)
    paidBlock rfl (CChain.tip_ofTip _) (isSuperblock_listedNode height_tallTip 30)
    keyed_paidBlocks (fill_oldList height_tallTip) (paying_paidBlock height_tallTip)).mpr
    (agrees_listedNode height_tallTip)).1

end Samples

end Scrypta.Payees
