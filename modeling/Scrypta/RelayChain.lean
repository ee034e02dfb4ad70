import Scrypta.Supply

/-! A chain of transactions that pass one output on, each spending the output of the one before. A
block may hold as many of them as its size allows, and all of its sums count the amount once for
each. -/

namespace Scrypta.Supply

open CCoinsViewCache Validation

def relayHash (i : ℕ) : Uint256 := BitVec.ofNat 256 (3000 + i)

/-- The output that is passed on; anyone can spend it. -/
def relayOut (nValue : CAmount) : CTxOut := ⟨nValue, [0x51], -10⟩

def relay (nValue : CAmount) (i : ℕ) : CTransaction :=
  spendOf (relayHash (i + 1)) ⟨relayHash i, 0⟩ [relayOut nValue]

/-- So many transactions, from one index on. -/
def relays (nValue : CAmount) : ℕ → ℕ → List CTransaction
  | _, 0 => []
  | i, n + 1 => relay nValue i :: relays nValue (i + 1) n

variable {par : Params} {env : Env} {nValue : CAmount} {i n : ℕ} {view : CCoinsViewCache}

theorem mem_relays {tx : CTransaction} (h : tx ∈ relays nValue i n) :
    ∃ j, i ≤ j ∧ j < i + n ∧ tx = relay nValue j := by
  induction n generalizing i with
  | zero => cases h
  | succ n ih =>
    rcases List.mem_cons.mp h with rfl | h
    · exact ⟨i, le_refl i, by omega, rfl⟩
    · obtain ⟨j, hlo, hhi, rfl⟩ := ih h
      exact ⟨j, by omega, by omega, rfl⟩

theorem length_relays (nValue : CAmount) (i n : ℕ) : (relays nValue i n).length = n := by
  induction n generalizing i with
  | zero => rfl
  | succ n ih => rw [relays, List.length_cons, ih]

theorem createdValue_relays (nValue : CAmount) (i n : ℕ) :
    createdValue (relays nValue i n) = n * nValue := by
  induction n generalizing i with
  | zero => simp [createdValue, relays]
  | succ n ih =>
    have hone : valueOut (relay nValue i) = nValue := add_zero nValue
    have hrest : createdValue (relay nValue i :: relays nValue (i + 1) n) =
      valueOut (relay nValue i) + createdValue (relays nValue (i + 1) n) := List.sum_cons
    rw [relays, hrest, hone, ih]
    push_cast
    rw [add_mul, one_mul, add_comm]

theorem isNull_prevout (i : ℕ) : (⟨relayHash i, 0⟩ : COutPoint).isNull = false := by
  have hn : ((0 : BitVec 32) == BitVec.allOnes 32) = false := by decide
  simp only [COutPoint.isNull, hn, Bool.and_false]

theorem isCoinBase_relay (nValue : CAmount) (i : ℕ) : (relay nValue i).isCoinBase = false :=
  isNull_prevout i

theorem isCoinStake_relay (nValue : CAmount) (i : ℕ) : (relay nValue i).isCoinStake = false := rfl

theorem getSerializeSize_relay (nValue : CAmount) (i : ℕ) :
    (relay nValue i).getSerializeSize = 61 := rfl

theorem getLegacySigOpCount_relay (nValue : CAmount) (i : ℕ) :
    (relay nValue i).getLegacySigOpCount = 0 := by
  have hout : Script.getSigOpCount false [0x51] = 0 := by decide
  have hin : Script.getSigOpCount false [] = 0 := by decide
  simp [CTransaction.getLegacySigOpCount, relay, spendOf, relayOut, hin, hout]

theorem checkTransaction_relay (h : 0 ≤ nValue) (hmax : nValue ≤ par.nMaxMoneyOut) (i : ℕ) :
    checkTransaction par (relay nValue i) = .ok () := by
  have hrange : moneyRange par (0 + nValue) = true := by
    simp [moneyRange, h, hmax]
  have hempty : (relayOut nValue).isEmpty = false := Bool.and_false _
  have hout : checkOutputs par (relay nValue i) [relayOut nValue] 0 = .ok () := by
    simp only [checkOutputs, bind_ok, require_ok, hempty, Bool.false_and, Bool.not_false,
      decide_eq_true_eq]
    exact ⟨(), trivial, (), h, (), hmax, (), hrange, trivial⟩
  have hnull := isNull_prevout i
  simp only [checkTransaction, bind_ok, require_ok, whenever_ok, isCoinBase_relay]
  refine ⟨(), rfl, (), rfl, (), rfl, (), hout, (), rfl, (),
    fun h => absurd h Bool.false_ne_true, fun _ => ?_⟩
  simp only [relay, spendOf, List.all_cons, List.all_nil, hnull, Bool.not_false, Bool.and_true]

theorem checkTransactions_relays (h : 0 ≤ nValue) (hmax : nValue ≤ par.nMaxMoneyOut) (i n : ℕ) :
    checkTransactions par (relays nValue i n) = .ok () := by
  induction n generalizing i with
  | zero => rfl
  | succ n ih =>
    rw [relays, checkTransactions]
    exact bind_ok.mpr ⟨(), checkTransaction_relay h hmax i, ih (i + 1)⟩

theorem getValueOut_relay (h : 0 ≤ nValue) (hmax : nValue ≤ maxAmount) (i : ℕ) :
    (relay nValue i).getValueOut = some nValue := by
  have hneg : ¬nValue < 0 := not_lt.mpr h
  have hover : ¬maxAmount < nValue := not_lt.mpr hmax
  simp only [CTransaction.getValueOut, relay, spendOf, relayOut, List.foldlM_cons,
    List.foldlM_nil, if_neg hneg, zero_add, if_neg hover]
  rfl

/-- The output that the next transaction spends is there and can be spent. -/
structure Ready (par : Params) (env : Env) (nValue : CAmount) (i : ℕ) (view : CCoinsViewCache) :
    Prop where
  index : ∃ pindexPrev, env.mapBlockIndex.find view.hashBlock = some pindexPrev ∧
    ∀ c, view.unspent (relayHash i) = some c → (c.fCoinBase || c.fCoinStake) = true →
      par.nMaturity ≤ ((pindexPrev : CBlockIndex).height : ℤ) + 1 - c.nHeight
  output : view.output (relayHash i) 0 = some (relayOut nValue)

theorem Ready.coins (h : Ready par env nValue i view) :
    view.accessCoins (relayHash i) = some (view.coinsFor (relayHash i)) ∧
      view.unspent (relayHash i) = some (view.coinsFor (relayHash i)) ∧
      (view.coinsFor (relayHash i)).vout.getD 0 CTxOut.null = relayOut nValue := by
  have hunspent := unspent_eq_some.mpr
    ⟨rfl, CCoins.isPruned_eq_false_iff.mpr ⟨0, _, h.output⟩⟩
  refine ⟨?_, hunspent, ?_⟩
  · rw [unspent] at hunspent
    exact (Option.filter_eq_some_iff.mp hunspent).1
  · rw [List.getD_eq_getElem?_getD, (Slots.held_eq_some.mp h.output).1, Option.getD_some]

theorem Ready.getOutputFor (h : Ready par env nValue i view) (txin : CTxIn)
    (hprev : txin.prevout = ⟨relayHash i, 0⟩) : view.getOutputFor txin = relayOut nValue := by
  rw [CCoinsViewCache.getOutputFor, hprev]
  exact h.coins.2.2

theorem Ready.haveInputs (h : Ready par env nValue i view) :
    view.haveInputs (relay nValue i) = true := by
  rw [CCoinsViewCache.haveInputs, isCoinBase_relay, Bool.false_or]
  simp only [relay, spendOf, List.all_cons, List.all_nil, Bool.and_true, haveInput_eq]
  exact Option.isSome_iff_exists.mpr ⟨_, h.output⟩

theorem Ready.getValueIn (h : Ready par env nValue i view) :
    view.getValueIn (relay nValue i) = nValue := by
  rw [relay, getValueIn_spendOf (isNull_prevout i)]
  exact congrArg CTxOut.nValue h.coins.2.2

theorem Ready.checkInputs (h : Ready par env nValue i view) (hpos : 0 ≤ nValue)
    (hmax : nValue ≤ par.nMaxMoneyOut) (hcap : nValue ≤ maxAmount) (fScriptChecks : Bool)
    (flags : ℕ) :
    checkInputs par plainOracles env (relay nValue i) view fScriptChecks flags = .ok true := by
  obtain ⟨pindexPrev, hindex, hmature⟩ := h.index
  obtain ⟨haccess, hunspent, hout⟩ := h.coins
  have hrange : moneyRange par nValue = true := by simp [moneyRange, hpos, hmax]
  have hvalues : checkInputValues par ((pindexPrev.height : ℤ) + 1) view (relay nValue i).vin 0 =
      .ok nValue := by
    simp only [relay, spendOf, checkInputValues, bind_ok, present_ok, require_ok]
    refine ⟨_, haccess, (), ?_, (), ?_, ?_⟩
    · cases hkind : (view.coinsFor (relayHash i)).fCoinBase ||
        (view.coinsFor (relayHash i)).fCoinStake with
      | false => rfl
      | true => exact decide_eq_true (hmature _ hunspent hkind)
    · simp only [show ((0 : BitVec 32).toNat) = 0 from rfl, hout, relayOut, zero_add, hrange,
        Bool.and_self]
    · simp only [show ((0 : BitVec 32).toNat) = 0 from rfl, hout, relayOut, zero_add]
  have hfee : checkFee par nValue (relay nValue i) = .ok () := by
    simp only [checkFee, isCoinStake_relay, Bool.false_eq_true, if_false, bind_ok, present_ok,
      require_ok, getValueOut_relay hpos hcap]
    refine ⟨nValue, rfl, (), decide_eq_true (le_refl _), ?_⟩
    simp only [sub_self, moneyRange]
    exact if_pos (by simp [le_trans hpos hmax])
  simp only [Validation.checkInputs, isCoinBase_relay, Bool.false_eq_true, if_false, bind_ok,
    require_ok, present_ok]
  refine ⟨(), h.haveInputs, pindexPrev, hindex, nValue, hvalues, (), hfee, ?_⟩
  cases fScriptChecks <;> rfl

/-- One transaction passes the output on, without a fee. -/
theorem Ready.connectTransaction {t : Tally} (h : Ready par env nValue i t.view)
    (hpos : 0 ≤ nValue) (hmax : nValue ≤ par.nMaxMoneyOut) (hcap : nValue ≤ maxAmount)
    (hsigops : t.nSigOps ≤ maxBlockSigops) (nHeight : ℤ) (flags : ℕ) (fScriptChecks : Bool) :
    ∃ t' undo, connectTransaction par plainOracles env nHeight flags fScriptChecks t
        (relay nValue i) = .ok (t', undo) ∧
      Ready par env nValue (i + 1) t'.view ∧ t'.nSigOps = t.nSigOps ∧ t'.nFees = t.nFees ∧
      t'.nValueOut - t'.nValueIn = t.nValueOut - t.nValueIn ∧ t'.fScriptsOk = t.fScriptsOk ∧
      t'.view.hashBlock = t.view.hashBlock := by
  obtain ⟨r, hr⟩ := CCoins.spend_isSome h.output
  have hp2sh : getP2SHSigOpCount (relay nValue i) t.view = 0 := by
    have hscript : Script.isPayToScriptHash [0x51] = false := by decide
    simp only [getP2SHSigOpCount, isCoinBase_relay, Bool.false_eq_true, if_false]
    have hget := h.getOutputFor ⟨⟨relayHash i, 0⟩, [], BitVec.allOnes 32⟩ rfl
    simp only [relay, spendOf, List.map_cons, List.map_nil, hget, relayOut, hscript,
      Bool.false_eq_true, if_false, List.sum_cons, List.sum_nil, Nat.add_zero]
  have hsum : (if flags &&& scriptVerifyP2SH ≠ 0 then t.nSigOps +
      getP2SHSigOpCount (relay nValue i) t.view else t.nSigOps) = t.nSigOps := by
    rw [hp2sh, Nat.add_zero, ite_self]
  have hfee : addFee t.nFees nValue (relay nValue i) = .ok t.nFees := by
    simp only [addFee, isCoinStake_relay, Bool.false_eq_true, if_false,
      getValueOut_relay hpos hcap, bind_ok, present_ok]
    exact ⟨nValue, rfl, by rw [sub_self, add_zero]; rfl⟩
  have hupdate : t.view.updateCoins (relay nValue i) nHeight =
      some ((t.view.putCoins (relayHash i) r.1).addOutputs (relay nValue i) nHeight,
        ⟨[r.2]⟩) := by
    simp only [CCoinsViewCache.updateCoins, isCoinBase_relay, Bool.false_eq_true, if_false]
    simp only [relay, spendOf, spendInputs]
    rw [show (t.view.coinsFor (relayHash i)).spend (0 : BitVec 32).toNat = some r from hr]
  have hready : Ready par env nValue (i + 1)
      ((t.view.putCoins (relayHash i) r.1).addOutputs (relay nValue i) nHeight) := by
    have hfrom : (CCoins.fromTx (relay nValue i) nHeight).output 0 = some (relayOut nValue) := by
      refine (CCoins.output_cleanup _ 0).trans (Slots.held_eq_some.mpr ⟨rfl, ?_⟩)
      exact isNull_of_nonneg hpos
    obtain ⟨pindexPrev, hindex, -⟩ := h.index
    refine ⟨⟨pindexPrev, hindex, fun c hc hkind => ?_⟩, ?_⟩
    · rw [addOutputs, unspent_putCoins] at hc
      rw [if_pos (show relayHash (i + 1) = (relay nValue i).getHash from rfl)] at hc
      split at hc
      · cases hc
      · rw [← Option.some.inj hc] at hkind
        have hcb : (CCoins.fromTx (relay nValue i) nHeight).cleanup.fCoinBase =
          (relay nValue i).isCoinBase := rfl
        have hcs : (CCoins.fromTx (relay nValue i) nHeight).cleanup.fCoinStake =
          (relay nValue i).isCoinStake := rfl
        rw [hcb, hcs, isCoinBase_relay, isCoinStake_relay] at hkind
        cases hkind
    · rw [addOutputs, output_putCoins,
        if_pos (show relayHash (i + 1) = (relay nValue i).getHash from rfl)]
      exact hfrom
  refine ⟨{ t with
      view := (t.view.putCoins (relayHash i) r.1).addOutputs (relay nValue i) nHeight
      nValueIn := t.nValueIn + nValue
      nValueOut := t.nValueOut + nValue }, ⟨[r.2]⟩, ?_, hready, rfl, rfl, ?_, rfl, rfl⟩
  · simp only [Validation.connectTransaction, getLegacySigOpCount_relay, Nat.add_zero, bind_ok,
      require_ok, present_ok, tallyInputs, isCoinBase_relay, Bool.false_eq_true, if_false]
    refine ⟨(), decide_eq_true hsigops, _, ⟨(), h.haveInputs, (), ?_, t.nFees, ?_, true,
      h.checkInputs hpos hmax hcap fScriptChecks flags, rfl⟩, nValue,
      getValueOut_relay hpos hcap i, _, hupdate, ?_⟩
    · rw [hsum]
      exact decide_eq_true hsigops
    · rw [h.getValueIn]
      exact hfee
    · simp only [hsum, h.getValueIn, Bool.and_true]
      rfl
  · simp only
    linarith

theorem Ready.connectTransactions {t : Tally} (h : Ready par env nValue i t.view)
    (hpos : 0 ≤ nValue) (hmax : nValue ≤ par.nMaxMoneyOut) (hcap : nValue ≤ maxAmount)
    (hsigops : t.nSigOps ≤ maxBlockSigops) (nHeight : ℤ) (flags : ℕ) (fScriptChecks : Bool)
    (n : ℕ) :
    ∃ t' undos, connectTransactions par plainOracles env nHeight flags fScriptChecks t
        (relays nValue i n) = .ok (t', undos) ∧ t'.nFees = t.nFees ∧
      t'.nValueOut - t'.nValueIn = t.nValueOut - t.nValueIn ∧ t'.fScriptsOk = t.fScriptsOk := by
  induction n generalizing i t with
  | zero => exact ⟨t, [], rfl, rfl, rfl, rfl⟩
  | succ n ih =>
    obtain ⟨t₁, undo, hone, hready, hsig, hfees, hmint, hscripts, -⟩ :=
      h.connectTransaction hpos hmax hcap hsigops nHeight flags fScriptChecks
    obtain ⟨t', undos, hrest, hfees', hmint', hscripts'⟩ := ih hready (hsig ▸ hsigops)
    refine ⟨t', undo :: undos, ?_, hfees'.trans hfees, hmint'.trans hmint,
      hscripts'.trans hscripts⟩
    rw [relays, Validation.connectTransactions]
    exact bind_ok.mpr ⟨_, hone, bind_ok.mpr ⟨_, hrest, rfl⟩⟩

/-! A node that is not synced, at height 20. -/

def syncingEnv (n : ℕ) : Env := { plainEnv (plainChain n) .empty .empty with isSynced := false }

/-- At height 20, with any money supplies. -/
def relayEnv (nMoneySupply : CBlockIndex → CAmount) : Env :=
  { syncingEnv 20 with nMoneySupply := nMoneySupply }

/-- A coinbase that takes nothing. -/
def emptyCoinbase (hash : Uint256) : CTransaction := coinbaseOf hash [⟨0, [], -10⟩]

def relayBlock (nValue : CAmount) (n : ℕ) : CBlock :=
  plainBlock 1021 1020 (emptyCoinbase 2021 :: relays nValue 0 n)

theorem isProofOfStake_relayBlock (nValue : CAmount) (n : ℕ) :
    (relayBlock nValue n).isProofOfStake = false := by
  cases n <;> rfl

theorem getSerializeSize_relayBlock {n : ℕ} (hn : n ≤ 16000) :
    (relayBlock nValue n).getSerializeSize ≤ maxBlockSize := by
  have hsum : ∀ i, ((relays nValue i n).map CTransaction.getSerializeSize).sum = 61 * n := by
    clear hn
    induction n with
    | zero => exact fun _ => rfl
    | succ n ih =>
      intro i
      rw [relays, List.map_cons, List.sum_cons, ih, getSerializeSize_relay]
      omega
  have hcb : (emptyCoinbase 2021).getSerializeSize = 62 := rfl
  have hlen : (relayBlock nValue n).vtx.length = n + 1 := by
    simp [relayBlock, plainBlock, length_relays]
  rw [CBlock.getSerializeSize, isProofOfStake_relayBlock, hlen]
  have htotal :
      ((relayBlock nValue n).vtx.map CTransaction.getSerializeSize).sum = 62 + 61 * n := by
    simp only [relayBlock, plainBlock, List.map_cons, List.sum_cons, hsum, hcb]
  rw [htotal]
  simp only [Bool.false_eq_true, if_false, CompactSize.sizeOf, maxBlockSize]
  split <;> (try split) <;> (try split) <;> omega

theorem checkBlock_relayBlock {nMoneySupply : CBlockIndex → CAmount} (hpos : 0 ≤ nValue)
    (hmax : nValue ≤ mainParams.nMaxMoneyOut) {n : ℕ} (hn : n ≤ 16000) :
    checkBlock mainParams plainOracles (relayEnv nMoneySupply) (relayBlock nValue n) true =
      .ok () := by
  have hothers : ∀ tx ∈ relays nValue 0 n, tx.isCoinBase = false := by
    intro tx htx
    obtain ⟨j, -, -, rfl⟩ := mem_relays htx
    exact isCoinBase_relay nValue j
  have hsigops : ((relayBlock nValue n).vtx.map CTransaction.getLegacySigOpCount).sum = 0 := by
    refine List.sum_eq_zero fun x hx => ?_
    obtain ⟨tx, htx, rfl⟩ := List.mem_map.mp hx
    rcases List.mem_cons.mp htx with rfl | htx
    · decide
    · obtain ⟨j, -, -, rfl⟩ := mem_relays htx
      exact getLegacySigOpCount_relay nValue j
  have htxs : checkTransactions mainParams (relayBlock nValue n).vtx = .ok () :=
    bind_ok.mpr ⟨(), by decide, checkTransactions_relays hpos hmax 0 n⟩
  have hpayee : checkPayee mainParams (relayEnv nMoneySupply)
      (relayBlock nValue n) = .ok () := by
    rw [checkPayee, whenever_ok]
    exact fun _ => bind_ok.mpr ⟨true, rfl, rfl⟩
  have hsize := @getSerializeSize_relayBlock nValue n hn
  have hlen : (relayBlock nValue n).vtx.length ≤ maxBlockSize := by
    have := length_vtx_le (relayBlock nValue n)
    omega
  simp only [checkBlock, bind_ok, require_ok, whenever_ok, isProofOfStake_relayBlock]
  refine ⟨(), ?_, (), ?_, (), fun _ => rfl, (), ?_, (), rfl, (), ?_, (),
    fun h => absurd h Bool.false_ne_true, (), ?_, (), hpayee, (), htxs, ?_⟩
  · exact Bool.or_true _
  · exact decide_eq_true
      (show ((1500000000 : BitVec 32).toNat : ℤ) ≤ 1600000000 + 7200 by decide)
  · rw [decide_eq_true hlen, decide_eq_true hsize]
    rfl
  · exact List.all_eq_true.mpr fun tx htx => by rw [hothers tx htx]; rfl
  · rw [List.all_eq_true.mpr fun tx _ => ?_, Bool.or_true]
    simp [respectsLocks, relayEnv, syncingEnv, plainEnv]
  · rw [hsigops]
    decide

/-- A block of relays is accepted. -/
theorem relayBlock_connects {nMoneySupply : CBlockIndex → CAmount} (hpos : 0 ≤ nValue)
    (hmax : nValue ≤ mainParams.nMaxMoneyOut) {n : ℕ} (hn : n ≤ 16000)
    (hhash : view.hashBlock = 1020) (hnew : ∀ tx ∈ (relayBlock nValue n).vtx,
      view.unspent tx.hash = none)
    (hready : Ready mainParams (relayEnv nMoneySupply) nValue 0
      view) :
    ∃ c, connectBlock mainParams plainOracles (relayEnv nMoneySupply)
      {} (relayBlock nValue n) (plainChain 21) view false = .ok c := by
  have hcap : nValue ≤ maxAmount := le_trans hmax (by decide)
  have hover : overwritesNothing view (relayBlock nValue n) = true := by
    refine List.all_eq_true.mpr fun tx htx => ?_
    have hnone := hnew tx htx
    rw [unspent] at hnone
    rw [CTransaction.getHash]
    cases haccess : view.accessCoins tx.hash with
    | none => rfl
    | some c =>
      rw [haccess] at hnone
      simpa using Option.filter_eq_none_iff.mp hnone c rfl
  have hfirst : Ready mainParams (relayEnv nMoneySupply) nValue 0
      (view.addOutputs (emptyCoinbase 2021) 21) := by
    have hne : relayHash 0 ≠ (emptyCoinbase 2021).getHash := by decide
    obtain ⟨pindexPrev, hindex, hmature⟩ := hready.index
    refine ⟨⟨pindexPrev, hindex, fun c hc => hmature c ?_⟩, ?_⟩
    · rwa [addOutputs, unspent_putCoins, if_neg hne] at hc
    · rw [addOutputs, output_putCoins, if_neg hne]
      exact hready.output
  obtain ⟨t', undos, hrelays, hfees, hmint, hscripts⟩ := @Ready.connectTransactions _ _ _ _
    ({ view := view.addOutputs (emptyCoinbase 2021) 21 } : Tally) hfirst hpos hmax hcap
    (Nat.zero_le _) 21 (scriptFlags plainOracles (relayBlock nValue n) (plainChain 21)) true n
  have hcoinbase : connectTransaction mainParams plainOracles
      (relayEnv nMoneySupply) 21
      (scriptFlags plainOracles (relayBlock nValue n) (plainChain 21)) true { view := view }
      (emptyCoinbase 2021) = .ok ({ view := view.addOutputs (emptyCoinbase 2021) 21 }, {}) := rfl
  have hconnected : connectTransactions mainParams plainOracles
      (relayEnv nMoneySupply) 21
      (scriptFlags plainOracles (relayBlock nValue n) (plainChain 21)) true { view := view }
      (relayBlock nValue n).vtx = .ok (t', {} :: undos) :=
    bind_ok.mpr ⟨_, hcoinbase, bind_ok.mpr ⟨_, hrelays, rfl⟩⟩
  have hvalue : ∀ nExpected nMinted, isBlockValueValid (relayEnv nMoneySupply)
      (relayBlock nValue n) nExpected nMinted = some true := fun _ _ => rfl
  simp only [connectBlock, bind_ok, require_ok]
  refine ⟨⟨t'.view.setBestBlock (plainChain 21).label.hash, ⟨undos⟩, t'.nFees,
    t'.nValueOut - t'.nValueIn⟩, (), checkBlock_relayBlock hpos hmax hn, (), ?_, ?_⟩
  · rw [hhash]
    rfl
  have hgenesis : ¬(relayBlock nValue n).getHash = mainParams.hashGenesisBlock :=
    show ¬(1021 : Uint256) = 1000 by decide
  rw [if_neg hgenesis]
  simp only [bind_ok, require_ok, present_ok, returned_ok, isProofOfStake_relayBlock,
    CBlock.isProofOfWork]
  refine ⟨(), by decide, (), by decide, (), ?_, _, hconnected, (), trivial, _, rfl, true,
    hvalue _ _, (), rfl, (), rfl, (), hscripts, ?_⟩
  · rw [hover, Bool.or_true]
  · rfl

end Scrypta.Supply
