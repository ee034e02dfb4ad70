import Scrypta.MixingDepth
import Scrypta.MixingSession

/-! How the wallet makes an entry for a mixing session: it selects coins of the denominations of the
session, locks them, and makes outputs of the same values. -/

namespace Scrypta.MixingEntries

open MixingDepth (isDenominated isCollateralAmount)
open Mixing (obfuScationDenominations obfuscationPoolMax getDenominations PoolStatus Shuffle)
open Obfuscation (CTxDSIn)

/-- A transaction of the wallet with what the node says of it. -/
structure CWalletTx where
  tx : CTransaction
  checkFinalTx : Bool
  isTrusted : Bool
  blocksToMaturity : ℤ
  nDepth : ℤ
  inMempool : Bool
  isSpent : ℕ → Bool

/-- The wallet. `isMine` answers with the flags of `isminetype`. An `int` counts the outputs of the
transactions, and a transaction that was accepted has no negative output. -/
structure Wallet where
  mapWallet : List CWalletTx
  isMine : CTxOut → ℕ
  fMasterNode : Bool
  currentCollateral : CAmount
  hashes_nodup : (mapWallet.map (·.tx.hash)).Nodup
  vout_lt : (mapWallet.map (·.tx.vout.length)).sum < 2 ^ 31
  nValue_nonneg : ∀ pcoin ∈ mapWallet, ∀ out ∈ pcoin.tx.vout, 0 ≤ out.nValue

structure COutput where
  outpoint : COutPoint
  nValue : CAmount
  scriptPubKey : CScript
  nDepth : ℤ
  fSpendable : Bool
  deriving DecidableEq, Repr

def COutput.txin (out : COutput) : CTxDSIn :=
  { prevout := out.outpoint, prevPubKey := out.scriptPubKey }

inductive AvailableCoinsType
  | allCoins
  | onlyDenominated
  | onlyNot10000IfMn
  | onlyNondenominatedNot10000IfMn
  | only10000
  deriving DecidableEq, Repr

section Available

variable (w : Wallet) (setLockedCoins : Finset COutPoint)

def wanted (nCoinType : AvailableCoinsType) (nValue : CAmount) : Bool :=
  match nCoinType with
  | .onlyDenominated => isDenominated nValue
  | .onlyNot10000IfMn => !(w.fMasterNode && nValue == w.currentCollateral)
  | .onlyNondenominatedNot10000IfMn =>
    !isCollateralAmount nValue && !isDenominated nValue &&
      !(w.fMasterNode && nValue == w.currentCollateral)
  | .only10000 => nValue == w.currentCollateral
  | .allCoins => true

/-- An output of a transaction of the wallet, if it is available. -/
def availableOutput (fIncludeZeroValue : Bool) (nCoinType : AvailableCoinsType) (pcoin : CWalletTx)
    (out : CTxOut) (i : ℕ) : Option COutput :=
  let outpt : COutPoint := ⟨pcoin.tx.hash, BitVec.ofNat 32 i⟩
  if !wanted w nCoinType out.nValue then none
  else if !pcoin.isSpent i && w.isMine out ≠ 0 &&
      (outpt ∉ setLockedCoins || nCoinType == .only10000) &&
      (0 < out.nValue || fIncludeZeroValue) then
    some ⟨outpt, out.nValue, out.scriptPubKey, pcoin.nDepth, (w.isMine out).testBit 2⟩
  else none

/-- The available outputs of a transaction, without a coin control. -/
def availableOutputs (fOnlyConfirmed fIncludeZeroValue : Bool) (nCoinType : AvailableCoinsType)
    (fUseIX : Bool) (pcoin : CWalletTx) : List COutput :=
  if !pcoin.checkFinalTx then []
  else if fOnlyConfirmed && !pcoin.isTrusted then []
  else if (pcoin.tx.isCoinBase || pcoin.tx.isCoinStake) && 0 < pcoin.blocksToMaturity then []
  else if fUseIX && pcoin.nDepth < 6 then []
  else if pcoin.nDepth = 0 && !pcoin.inMempool then []
  else pcoin.tx.vout.zipIdx.filterMap fun o =>
    availableOutput w setLockedCoins fIncludeZeroValue nCoinType pcoin o.1 o.2

def availableCoins (fOnlyConfirmed fIncludeZeroValue : Bool) (nCoinType : AvailableCoinsType)
    (fUseIX : Bool) : List COutput :=
  w.mapWallet.flatMap
    (availableOutputs w setLockedCoins fOnlyConfirmed fIncludeZeroValue nCoinType fUseIX)

end Available

/-- What the call finds: the wallet, the pool, the session word, the bounds on the rounds and what
`GetInputObfuscationRounds` answers for the coins. -/
structure Env where
  w : Wallet
  isLocked : Bool
  poolState : PoolStatus
  entriesCount : ℕ
  sessionDenom : BitVec 32
  setLockedCoins : Finset COutPoint
  minRounds : ℤ
  maxRounds : ℤ
  getInputObfuscationRounds : COutPoint → ℤ

/-- The outcomes of chance, and the scripts of the keys that are taken from the key pool. -/
structure Draws where
  shuffleCoins : Shuffle COutput
  rand : ℕ → ℕ
  getRandInt : Fin 5
  scriptChange : ℕ → CScript
  shuffleOut : Shuffle CTxOut

/-- The bit of the session word that takes a value: the chain of comparisons that the selection and
the outputs share. -/
def accepted (nDenom : BitVec 32) (v : CAmount) : Option ℕ :=
  (List.range 6).find? fun k => nDenom.getLsbD k && obfuScationDenominations[k]? == some v

structure Selected where
  vCoinsRet : List CTxDSIn := []
  vCoinsRet2 : List COutput := []
  nValueRet : CAmount := 0

def Selected.add (s : Selected) (out : COutput) : Selected :=
  ⟨s.vCoinsRet ++ [out.txin], s.vCoinsRet2 ++ [out], s.nValueRet + out.nValue⟩

/-- Every denomination of the session is there. -/
def fulfilled (fFound : ℕ → Bool) : Bool := (List.range 6).all fFound

/-- The loop over the coins. `none` is a remainder modulo zero; `draw` counts calls of `rand`. -/
def selectLoop (env : Env) (rand : ℕ → ℕ) (nValueMin : CAmount) (size : ℕ) :
    List COutput → (ℕ → Bool) → CAmount → ℕ → Selected → Option (Bool × Selected)
  | [], fFound, _, _, s => some (decide (nValueMin ≤ s.nValueRet) && fulfilled fFound, s)
  | out :: vCoins, fFound, nValueMax, draw, s =>
    let rounds := env.getInputObfuscationRounds out.outpoint
    if nValueMax < s.nValueRet + out.nValue then
      selectLoop env rand nValueMin size vCoins fFound nValueMax draw s
    else if env.maxRounds ≤ rounds ∨ rounds < env.minRounds then
      selectLoop env rand nValueMin size vCoins fFound nValueMax draw s
    else if fulfilled fFound then
      if nValueMin ≤ s.nValueRet then
        if nValueMax / 5 = 0 ∨ size = 0 then none
        else
          let nValueMax := nValueMax - (rand draw : ℤ) % (nValueMax / 5)
          let r := rand (draw + 1) % size
          if r < s.vCoinsRet.length then some (true, s)
          else
            selectLoop env rand nValueMin size vCoins fFound nValueMax (draw + 2)
              (if (accepted env.sessionDenom out.nValue).isSome then s.add out else s)
      else
        selectLoop env rand nValueMin size vCoins fFound nValueMax draw
          (if (accepted env.sessionDenom out.nValue).isSome then s.add out else s)
    else
      match accepted env.sessionDenom out.nValue with
      | none => selectLoop env rand nValueMin size vCoins fFound nValueMax draw s
      | some k =>
        selectLoop env rand nValueMin size vCoins (fun j => fFound j || j == k) nValueMax draw
          (s.add out)

/-- The coins that the selection looks at: the type of coins stands in the place of the flag for
outputs of value zero. -/
def selectable (env : Env) : List COutput :=
  availableCoins env.w env.setLockedCoins true true .allCoins false

def selectCoinsByDenominations (env : Env) (draws : Draws) (nValueMin nValueMax : CAmount) :
    Option (Bool × Selected) :=
  let vCoins := draws.shuffleCoins.shuffle (selectable env)
  selectLoop env draws.rand nValueMin vCoins.length vCoins
    (fun k => !env.sessionDenom.getLsbD k) nValueMax 0 {}

/-- The coins that are left and what was made of the others. -/
structure Filling where
  vCoins : List CTxDSIn
  vCoins2 : List COutput
  vCoinsResult : List CTxDSIn := []
  vOut : List CTxOut := []
  nValueLeft : CAmount

/-- One denomination: the first coin with this value becomes an input, with an output of the same
value. `none` is an input past the end of the first list. -/
def addDenomination (sessionDenom : BitVec 32) (scriptChange : ℕ → CScript) (f : Filling)
    (v : CAmount) : Option Filling :=
  if (accepted sessionDenom v).isNone then some f
  else if f.nValueLeft - v < 0 then some f
  else
    match f.vCoins2.findIdx? fun out => out.nValue == v with
    | none => some f
    | some j => f.vCoins[j]?.map fun txin =>
      { vCoins := f.vCoins.eraseIdx j
        vCoins2 := f.vCoins2.eraseIdx j
        vCoinsResult := f.vCoinsResult ++ [txin]
        vOut := f.vOut ++ [{ nValue := v, scriptPubKey := scriptChange f.vOut.length }]
        nValueLeft := f.nValueLeft - v }

def fillSteps (sessionDenom : BitVec 32) (scriptChange : ℕ → CScript) :
    ℕ → Filling → Option Filling
  | 0, f => some f
  | nSteps + 1, f =>
    match obfuScationDenominations.foldlM (addDenomination sessionDenom scriptChange) f with
    | none => none
    | some f => if f.nValueLeft = 0 then some f else fillSteps sessionDenom scriptChange nSteps f

def lockCoins (setLockedCoins : Finset COutPoint) (vin : List CTxDSIn) : Finset COutPoint :=
  vin.foldl (fun locked v => insert v.prevout locked) setLockedCoins

def unlockCoins (setLockedCoins : Finset COutPoint) (vin : List CTxDSIn) : Finset COutPoint :=
  vin.foldl (fun locked v => locked.erase v.prevout) setLockedCoins

/-- An error text, or an entry that is handed to `SendObfuscationDenominate`. -/
inductive Outcome
  | error (text : String)
  | submitted (vin : List CTxDSIn) (vout : List CTxOut) (amount : CAmount)

/-- The wallet has an entry in the pool already. -/
def pending (env : Env) : Bool :=
  env.poolState ≠ .error && env.poolState ≠ .success && 0 < env.entriesCount

/-- What is left of the call once coins are selected. -/
def makeEntry (env : Env) (draws : Draws) (s : Selected) :
    Option (Outcome × Finset COutPoint) :=
  let locked := lockCoins env.setLockedCoins s.vCoinsRet
  match fillSteps env.sessionDenom draws.scriptChange (5 + draws.getRandInt)
      { vCoins := s.vCoinsRet, vCoins2 := s.vCoinsRet2, nValueLeft := s.nValueRet } with
  | none => none
  | some f =>
    let locked := unlockCoins locked f.vCoins
    if BitVec.ofNat 32 (getDenominations f.vOut) ≠ env.sessionDenom then
      some (.error "Error: can't make current denominated outputs",
        unlockCoins locked f.vCoinsResult)
    else
      some (.submitted f.vCoinsResult (draws.shuffleOut.shuffle f.vOut)
        (s.nValueRet - f.nValueLeft), locked)

def prepareObfuscationDenominate (env : Env) (draws : Draws) :
    Option (Outcome × Finset COutPoint) :=
  if env.isLocked then
    some (.error "Error: Wallet locked, unable to create transaction!", env.setLockedCoins)
  else if pending env then
    some (.error "Error: You already have pending entries in the Obfuscation pool",
      env.setLockedCoins)
  else if 0 ≤ env.minRounds then
    match selectCoinsByDenominations env draws (coin / 10) obfuscationPoolMax with
    | none => none
    | some (false, _) =>
      some (.error "Error: Can't select current denominated inputs", env.setLockedCoins)
    | some (true, s) => makeEntry env draws s
  else makeEntry env draws {}

section Coins

/-- The outpoints of what is kept of a list stand in the list. -/
theorem map_filterMap_sublist {α β γ : Type*} {f : α → Option β} {g : β → γ} {h : α → γ}
    (hfg : ∀ a b, f a = some b → g b = h a) (l : List α) :
    ((l.filterMap f).map g).Sublist (l.map h) := by
  induction l with
  | nil => exact List.Sublist.refl _
  | cons a l ih =>
    cases hf : f a with
    | none =>
      rw [List.filterMap_cons_none hf, List.map_cons]
      exact ih.cons _
    | some b =>
      rw [List.filterMap_cons_some hf, List.map_cons, List.map_cons, hfg a b hf]
      exact ih.cons_cons _

variable {w : Wallet} {locked : Finset COutPoint} {fZero : Bool} {nCoinType : AvailableCoinsType}

theorem availableOutput_eq_some {pcoin : CWalletTx} {out : CTxOut} {i : ℕ} {c : COutput}
    (h : availableOutput w locked fZero nCoinType pcoin out i = some c) :
    c.outpoint = ⟨pcoin.tx.hash, BitVec.ofNat 32 i⟩ ∧ c.nValue = out.nValue ∧
      (nCoinType ≠ .only10000 → c.outpoint ∉ locked) := by
  unfold availableOutput at h
  dsimp only at h
  split_ifs at h with hwanted hfree
  obtain rfl := Option.some.inj h
  refine ⟨rfl, rfl, fun hne => ?_⟩
  simp only [Bool.and_eq_true, Bool.or_eq_true, decide_eq_true_eq, beq_iff_eq] at hfree
  exact hfree.1.2.resolve_right hne

variable {fConfirmed fUseIX : Bool} {pcoin : CWalletTx}

theorem mem_availableOutputs {c : COutput}
    (h : c ∈ availableOutputs w locked fConfirmed fZero nCoinType fUseIX pcoin) :
    ∃ o ∈ pcoin.tx.vout.zipIdx,
      availableOutput w locked fZero nCoinType pcoin o.1 o.2 = some c := by
  unfold availableOutputs at h
  split_ifs at h
  all_goals first | exact absurd h List.not_mem_nil | exact List.mem_filterMap.mp h

/-- The outpoints of a transaction. -/
def outpointsOf (pcoin : CWalletTx) : List COutPoint :=
  pcoin.tx.vout.zipIdx.map fun o => ⟨pcoin.tx.hash, BitVec.ofNat 32 o.2⟩

theorem outpoints_sublist :
    ((availableOutputs w locked fConfirmed fZero nCoinType fUseIX pcoin).map
      COutput.outpoint).Sublist (outpointsOf pcoin) := by
  unfold availableOutputs
  split_ifs
  all_goals first
    | exact List.nil_sublist _
    | exact map_filterMap_sublist (fun o c h => (availableOutput_eq_some h).1) _

theorem Wallet.vout_length_lt (w : Wallet) (h : pcoin ∈ w.mapWallet) :
    pcoin.tx.vout.length < 2 ^ 31 :=
  (List.single_le_sum (fun _ _ => Nat.zero_le _) _ (List.mem_map_of_mem h)).trans_lt w.vout_lt

theorem outpointsOf_nodup (h : pcoin.tx.vout.length < 2 ^ 31) : (outpointsOf pcoin).Nodup := by
  have hindices : outpointsOf pcoin =
      (pcoin.tx.vout.zipIdx.map Prod.snd).map fun i => ⟨pcoin.tx.hash, BitVec.ofNat 32 i⟩ := by
    rw [List.map_map]
    rfl
  rw [hindices, List.zipIdx_map_snd]
  refine List.Nodup.map_on (fun i hi j hj heq => ?_) List.nodup_range'
  have hbits := congrArg (fun o : COutPoint => o.n.toNat) heq
  simp only [List.mem_range'_1] at hi hj
  rwa [BitVec.toNat_ofNat, BitVec.toNat_ofNat, Nat.mod_eq_of_lt (by omega),
    Nat.mod_eq_of_lt (by omega)] at hbits

theorem availableCoins_nodup (w : Wallet) (locked : Finset COutPoint) (fConfirmed fZero : Bool)
    (nCoinType : AvailableCoinsType) (fUseIX : Bool) :
    ((availableCoins w locked fConfirmed fZero nCoinType fUseIX).map COutput.outpoint).Nodup := by
  rw [availableCoins, List.map_flatMap, List.nodup_flatMap]
  refine ⟨fun pcoin hpcoin => (outpointsOf_nodup (w.vout_length_lt hpcoin)).sublist
    outpoints_sublist, ?_⟩
  refine (List.pairwise_map.mp w.hashes_nodup).imp fun {a b} hne o ha hb => hne ?_
  have hhash : ∀ pcoin : CWalletTx, o ∈ outpointsOf pcoin → o.hash = pcoin.tx.hash := by
    intro pcoin ho
    obtain ⟨_, -, rfl⟩ := List.mem_map.mp ho
    rfl
  rw [← hhash a (outpoints_sublist.subset ha), hhash b (outpoints_sublist.subset hb)]

theorem selectable_nodup (env : Env) : ((selectable env).map COutput.outpoint).Nodup :=
  availableCoins_nodup env.w env.setLockedCoins true true .allCoins false

theorem mem_selectable {env : Env} {c : COutput} (h : c ∈ selectable env) :
    c.outpoint ∉ env.setLockedCoins ∧ 0 ≤ c.nValue := by
  obtain ⟨pcoin, hpcoin, hc⟩ := List.mem_flatMap.mp h
  obtain ⟨o, ho, hsome⟩ := mem_availableOutputs hc
  obtain ⟨-, hvalue, hfree⟩ := availableOutput_eq_some hsome
  refine ⟨hfree (by decide), hvalue ▸ env.w.nValue_nonneg pcoin hpcoin o.1 ?_⟩
  exact List.fst_mem_of_mem_zipIdx ho

end Coins

section Denominations

theorem accepted_eq_some {nDenom : BitVec 32} {v : CAmount} {k : ℕ}
    (h : accepted nDenom v = some k) :
    k < 6 ∧ nDenom.getLsbD k = true ∧ obfuScationDenominations[k]? = some v := by
  have hbit := List.find?_some h
  rw [Bool.and_eq_true, beq_iff_eq] at hbit
  exact ⟨List.mem_range.mp (List.mem_of_find?_eq_some h), hbit⟩

theorem denominations_inj {j k : ℕ} {v : CAmount} (hj : obfuScationDenominations[j]? = some v)
    (hk : obfuScationDenominations[k]? = some v) : j = k :=
  (List.getElem?_inj (List.getElem?_eq_some_iff.mp hj).1 (by decide)).mp (hj.trans hk.symm)

theorem accepted_of_bit {nDenom : BitVec 32} {v : CAmount} {k : ℕ}
    (hbit : nDenom.getLsbD k = true) (hk : obfuScationDenominations[k]? = some v) :
    accepted nDenom v = some k := by
  have hlt : k < 6 := (List.getElem?_eq_some_iff.mp hk).1
  have hsome : (accepted nDenom v).isSome = true := by
    refine List.find?_isSome.mpr ⟨k, List.mem_range.mpr hlt, ?_⟩
    rw [hbit, hk, Bool.true_and]
    exact beq_self_eq_true _
  obtain ⟨j, hj⟩ := Option.isSome_iff_exists.mp hsome
  rw [hj, denominations_inj (accepted_eq_some hj).2.2 hk]

theorem mem_denominations_of_accepted {nDenom : BitVec 32} {v : CAmount}
    (h : (accepted nDenom v).isSome = true) : v ∈ obfuScationDenominations := by
  obtain ⟨k, hk⟩ := Option.isSome_iff_exists.mp h
  exact List.mem_of_getElem? (accepted_eq_some hk).2.2

theorem denomination_pos {v : CAmount} (h : v ∈ obfuScationDenominations) : coin / 10 ≤ v := by
  revert v
  decide

end Denominations

section Selection

/-- The coin was mixed for as many rounds as are asked for. -/
def InRounds (env : Env) (c : COutput) : Prop :=
  env.minRounds ≤ env.getInputObfuscationRounds c.outpoint ∧
    env.getInputObfuscationRounds c.outpoint < env.maxRounds

/-- The coins are what was selected of `seen`, and a flag that is up has its coin. -/
structure SelectInv (env : Env) (seen : List COutput) (fFound : ℕ → Bool) (s : Selected) :
    Prop where
  sublist : s.vCoinsRet2.Sublist seen
  txins : s.vCoinsRet = s.vCoinsRet2.map COutput.txin
  value : s.nValueRet = (s.vCoinsRet2.map COutput.nValue).sum
  eligible : ∀ c ∈ s.vCoinsRet2, (accepted env.sessionDenom c.nValue).isSome = true ∧ InRounds env c
  found : ∀ k < 6, env.sessionDenom.getLsbD k = true → fFound k = true →
    ∃ c ∈ s.vCoinsRet2, obfuScationDenominations[k]? = some c.nValue

variable {env : Env} {seen : List COutput} {fFound : ℕ → Bool} {s : Selected} {c : COutput}

theorem SelectInv.start (env : Env) :
    SelectInv env [] (fun k => !env.sessionDenom.getLsbD k) {} where
  sublist := List.Sublist.refl _
  txins := rfl
  value := rfl
  eligible c hc := absurd hc List.not_mem_nil
  found k _ hbit hfound := by
    rw [hbit] at hfound
    cases hfound

theorem SelectInv.skip (h : SelectInv env seen fFound s) (more : List COutput) :
    SelectInv env (seen ++ more) fFound s :=
  { h with sublist := h.sublist.trans (List.sublist_append_left _ _) }

theorem SelectInv.add (h : SelectInv env seen fFound s) (hrounds : InRounds env c) {k : ℕ}
    (hk : accepted env.sessionDenom c.nValue = some k) {fFound' : ℕ → Bool}
    (hfound : ∀ j, fFound' j = true → fFound j = true ∨ j = k) :
    SelectInv env (seen ++ [c]) fFound' (s.add c) where
  sublist := h.sublist.append (List.Sublist.refl _)
  txins := by rw [Selected.add, h.txins, List.map_append, List.map_singleton]
  value := by
    rw [Selected.add, h.value, List.map_append, List.map_singleton, List.sum_append,
      List.sum_singleton]
  eligible := by
    intro c' hc'
    rcases List.mem_append.mp hc' with hc' | hc'
    · exact h.eligible c' hc'
    · rw [List.mem_singleton.mp hc', hk]
      exact ⟨rfl, hrounds⟩
  found := by
    intro j hj hbit hup
    rcases hfound j hup with hold | rfl
    · obtain ⟨c', hc', hvalue⟩ := h.found j hj hbit hold
      exact ⟨c', List.mem_append_left _ hc', hvalue⟩
    · exact ⟨c, List.mem_append_right _ (List.mem_singleton_self c), (accepted_eq_some hk).2.2⟩

/-- A maximum that a coin still fits under is at least the minimum. -/
theorem fifth_ne_zero {nValueMin : ℤ} (hmin : 5 ≤ nValueMin) {selected value nValueMax : CAmount}
    (henough : nValueMin ≤ selected) (hvalue : 0 ≤ value) (hfits : selected + value ≤ nValueMax) :
    nValueMax / 5 ≠ 0 := by
  have hfive : 5 ≤ nValueMax :=
    hmin.trans (henough.trans ((le_add_of_nonneg_right hvalue).trans hfits))
  have hpos : (1 : ℤ) ≤ nValueMax / 5 := Int.le_ediv_of_mul_le (by decide) hfive
  exact (zero_lt_one.trans_le hpos).ne'

/-- What the loop promises when it ends. -/
def SelectPost (env : Env) (nValueMin : CAmount) (vCoins : List COutput)
    (result : Option (Bool × Selected)) : Prop :=
  ∃ b s fFound, result = some (b, s) ∧ SelectInv env vCoins fFound s ∧
    (b = true → fulfilled fFound = true ∧ nValueMin ≤ s.nValueRet)

/-- The selection ends without a remainder modulo zero; what it hands back has a coin of every
denomination of the session. -/
theorem selectLoop_spec (env : Env) (rand : ℕ → ℕ) {nValueMin : ℤ} (hmin : 5 ≤ nValueMin)
    {size : ℕ} (vCoins : List COutput) (hsize : vCoins.length ≤ size) (nValueMax : CAmount)
    (draw : ℕ) (hvalue : ∀ c ∈ vCoins, 0 ≤ c.nValue) (hinv : SelectInv env seen fFound s) :
    SelectPost env nValueMin (seen ++ vCoins)
      (selectLoop env rand nValueMin size vCoins fFound nValueMax draw s) := by
  induction vCoins generalizing seen fFound nValueMax draw s with
  | nil =>
    refine ⟨_, s, fFound, rfl, hinv.skip [], fun h => ?_⟩
    rw [Bool.and_eq_true, decide_eq_true_eq] at h
    exact h.symm
  | cons c vCoins ih =>
    obtain ⟨hc, hvalue⟩ := List.forall_mem_cons.mp hvalue
    rw [List.length_cons] at hsize
    have hrest : vCoins.length ≤ size := by omega
    have hskip : ∀ nValueMax draw, SelectPost env nValueMin (seen ++ c :: vCoins)
        (selectLoop env rand nValueMin size vCoins fFound nValueMax draw s) := by
      intro nValueMax draw
      rw [List.append_cons]
      exact ih hrest nValueMax draw hvalue (hinv.skip [c])
    have hadd : ∀ nValueMax draw {k}, InRounds env c → accepted env.sessionDenom c.nValue = some k →
        ∀ fFound' : ℕ → Bool, (∀ j, fFound' j = true → fFound j = true ∨ j = k) →
        SelectPost env nValueMin (seen ++ c :: vCoins)
          (selectLoop env rand nValueMin size vCoins fFound' nValueMax draw (s.add c)) := by
      intro nValueMax draw k hrounds hk fFound' hfound
      rw [List.append_cons]
      exact ih hrest nValueMax draw hvalue (hinv.add hrounds hk hfound)
    -- once every denomination is there, a coin is taken when the session has its denomination
    have htake : ∀ nValueMax draw, InRounds env c → SelectPost env nValueMin (seen ++ c :: vCoins)
        (selectLoop env rand nValueMin size vCoins fFound nValueMax draw
          (if (accepted env.sessionDenom c.nValue).isSome then s.add c else s)) := by
      intro nValueMax draw hrounds
      cases hk : accepted env.sessionDenom c.nValue with
      | none => exact hskip nValueMax draw
      | some k => exact hadd nValueMax draw hrounds hk fFound fun j hj => .inl hj
    rw [selectLoop]
    dsimp only
    by_cases hlarge : nValueMax < s.nValueRet + c.nValue
    · rw [if_pos hlarge]
      exact hskip nValueMax draw
    rw [if_neg hlarge]
    by_cases hout : env.maxRounds ≤ env.getInputObfuscationRounds c.outpoint ∨
        env.getInputObfuscationRounds c.outpoint < env.minRounds
    · rw [if_pos hout]
      exact hskip nValueMax draw
    rw [if_neg hout]
    have hrounds : InRounds env c := by
      rw [not_or, not_le, not_lt] at hout
      exact hout.symm
    by_cases hfull : fulfilled fFound
    · rw [if_pos hfull]
      by_cases henough : nValueMin ≤ s.nValueRet
      · rw [if_pos henough]
        have hfifth : ¬ (nValueMax / 5 = 0 ∨ size = 0) :=
          not_or.mpr ⟨fifth_ne_zero hmin henough hc (not_lt.mp hlarge), by omega⟩
        rw [if_neg hfifth]
        by_cases hstop : rand (draw + 1) % size < s.vCoinsRet.length
        · rw [if_pos hstop]
          exact ⟨true, s, fFound, rfl, hinv.skip _, fun _ => ⟨hfull, henough⟩⟩
        · rw [if_neg hstop]
          exact htake _ _ hrounds
      · rw [if_neg henough]
        exact htake nValueMax draw hrounds
    · rw [if_neg hfull]
      cases hk : accepted env.sessionDenom c.nValue with
      | none => exact hskip nValueMax draw
      | some k =>
        refine hadd nValueMax draw hrounds hk _ fun j hj => ?_
        rw [Bool.or_eq_true, beq_iff_eq] at hj
        exact hj

end Selection

section Filling

/-- The coins are those that were used and those that are left, and a denomination of the session
that was tried is used when there is a coin of it. -/
structure FillInv (nDenom : BitVec 32) (coins : List COutput) (tried : List CAmount)
    (used : List COutput) (f : Filling) : Prop where
  left : f.vCoins = f.vCoins2.map COutput.txin
  result : f.vCoinsResult = used.map COutput.txin
  perm : (used ++ f.vCoins2).Perm coins
  values : f.vOut.map CTxOut.nValue = used.map COutput.nValue
  rest : f.nValueLeft = (f.vCoins2.map COutput.nValue).sum
  tried : ∀ v ∈ tried, (accepted nDenom v).isSome = true → (∃ c ∈ coins, c.nValue = v) →
    ∃ c ∈ used, c.nValue = v

variable {nDenom : BitVec 32} {coins used : List COutput} {tried : List CAmount} {f : Filling}
  {v : CAmount}

theorem FillInv.start (s : Selected) (htxins : s.vCoinsRet = s.vCoinsRet2.map COutput.txin)
    (hvalue : s.nValueRet = (s.vCoinsRet2.map COutput.nValue).sum) :
    FillInv nDenom s.vCoinsRet2 [] []
      { vCoins := s.vCoinsRet, vCoins2 := s.vCoinsRet2, nValueLeft := s.nValueRet } where
  left := htxins
  result := rfl
  perm := List.Perm.refl _
  values := rfl
  rest := hvalue
  tried _ hv := absurd hv List.not_mem_nil

theorem FillInv.refuse (h : FillInv nDenom coins tried used f)
    (hv : (accepted nDenom v).isSome = true → ∀ c ∈ f.vCoins2, c.nValue ≠ v) :
    FillInv nDenom coins (tried ++ [v]) used f :=
  { h with
    tried := by
      intro v' hv' hsome hcoin
      rcases List.mem_append.mp hv' with hv' | hv'
      · exact h.tried v' hv' hsome hcoin
      · obtain rfl := List.mem_singleton.mp hv'
        obtain ⟨c, hc, hvalue⟩ := hcoin
        rcases List.mem_append.mp (h.perm.mem_iff.mpr hc) with hused | hleft
        · exact ⟨c, hused, hvalue⟩
        · exact absurd hvalue (hv hsome c hleft) }

theorem FillInv.move (h : FillInv nDenom coins tried used f) {j : ℕ} (hj : j < f.vCoins2.length)
    (hv : f.vCoins2[j].nValue = v) (script : CScript) :
    FillInv nDenom coins (tried ++ [v]) (used ++ [f.vCoins2[j]])
      { vCoins := f.vCoins.eraseIdx j
        vCoins2 := f.vCoins2.eraseIdx j
        vCoinsResult := f.vCoinsResult ++ [f.vCoins2[j].txin]
        vOut := f.vOut ++ [{ nValue := v, scriptPubKey := script }]
        nValueLeft := f.nValueLeft - v } where
  left := by rw [h.left, List.eraseIdx_map]
  result := by rw [h.result, List.map_append, List.map_singleton]
  perm := by
    rw [List.append_assoc, List.singleton_append]
    exact ((List.getElem_cons_eraseIdx_perm hj).append_left used).trans h.perm
  values := by rw [List.map_append, h.values, List.map_append, List.map_singleton,
    List.map_singleton, hv]
  rest := by
    have hsum := ((List.getElem_cons_eraseIdx_perm hj).map COutput.nValue).sum_eq
    rw [List.map_cons, List.sum_cons, hv] at hsum
    rw [h.rest, ← hsum, add_sub_cancel_left]
  tried := by
    intro v' hv' hsome hcoin
    rcases List.mem_append.mp hv' with hv' | hv'
    · obtain ⟨c, hc, hvalue⟩ := h.tried v' hv' hsome hcoin
      exact ⟨c, List.mem_append_left _ hc, hvalue⟩
    · obtain rfl := List.mem_singleton.mp hv'
      exact ⟨_, List.mem_append_right _ (List.mem_singleton_self _), hv⟩

theorem addDenomination_spec (scriptChange : ℕ → CScript) (hvalue : ∀ c ∈ coins, 0 ≤ c.nValue)
    (h : FillInv nDenom coins tried used f) (v : CAmount) :
    ∃ used' f', addDenomination nDenom scriptChange f v = some f' ∧
      FillInv nDenom coins (tried ++ [v]) used' f' := by
  rw [addDenomination]
  by_cases hnone : (accepted nDenom v).isNone
  · rw [if_pos hnone]
    refine ⟨used, f, rfl, h.refuse fun hsome => ?_⟩
    rw [← Option.not_isNone, hnone] at hsome
    cases hsome
  rw [if_neg hnone]
  by_cases hless : f.nValueLeft - v < 0
  · rw [if_pos hless]
    -- a coin of this value would be part of what is left
    refine ⟨used, f, rfl, h.refuse fun _ c hc hcv => ?_⟩
    have hle := List.single_le_sum (l := f.vCoins2.map COutput.nValue)
      (fun x hx => by
        obtain ⟨c', hc', rfl⟩ := List.mem_map.mp hx
        exact hvalue c' (h.perm.subset (List.mem_append_right _ hc'))) _ (List.mem_map_of_mem hc)
    rw [← h.rest, hcv] at hle
    exact absurd hless (not_lt.mpr (sub_nonneg.mpr hle))
  rw [if_neg hless]
  cases hj : f.vCoins2.findIdx? fun out => out.nValue == v with
  | none =>
    refine ⟨used, f, rfl, h.refuse fun _ c hc hcv => ?_⟩
    have hne := List.findIdx?_eq_none_iff.mp hj c hc
    rw [hcv, beq_self_eq_true] at hne
    cases hne
  | some j =>
    obtain ⟨hlt, hfound, -⟩ := List.findIdx?_eq_some_iff_getElem.mp hj
    have htxin : f.vCoins[j]? = some f.vCoins2[j].txin := by
      rw [h.left, List.getElem?_map, List.getElem?_eq_getElem hlt, Option.map_some]
    refine ⟨used ++ [f.vCoins2[j]], _, ?_,
      h.move hlt (beq_iff_eq.mp hfound) (scriptChange f.vOut.length)⟩
    dsimp only
    rw [htxin, Option.map_some]

theorem foldlM_addDenomination_spec (scriptChange : ℕ → CScript)
    (hvalue : ∀ c ∈ coins, 0 ≤ c.nValue) (ds : List CAmount)
    (h : FillInv nDenom coins tried used f) :
    ∃ used' f', ds.foldlM (addDenomination nDenom scriptChange) f = some f' ∧
      FillInv nDenom coins (tried ++ ds) used' f' := by
  induction ds generalizing tried used f with
  | nil => exact ⟨used, f, rfl, by rwa [List.append_nil]⟩
  | cons v ds ih =>
    obtain ⟨used₁, f₁, hstep, h₁⟩ := addDenomination_spec scriptChange hvalue h v
    obtain ⟨used₂, f₂, hrest, h₂⟩ := ih h₁
    refine ⟨used₂, f₂, ?_, by rwa [← List.append_cons] at h₂⟩
    rw [List.foldlM_cons, hstep]
    exact hrest

/-- After one step every denomination was tried. -/
theorem fillSteps_spec (scriptChange : ℕ → CScript) (hvalue : ∀ c ∈ coins, 0 ≤ c.nValue)
    (nSteps : ℕ) (h : FillInv nDenom coins tried used f) :
    ∃ tried' used' f', fillSteps nDenom scriptChange nSteps f = some f' ∧
      FillInv nDenom coins tried' used' f' ∧ tried ⊆ tried' ∧
      (0 < nSteps → obfuScationDenominations ⊆ tried') := by
  induction nSteps generalizing tried used f with
  | zero => exact ⟨tried, used, f, rfl, h, List.Subset.refl _, fun h => absurd h (lt_irrefl 0)⟩
  | succ nSteps ih =>
    obtain ⟨used₁, f₁, hstep, h₁⟩ :=
      foldlM_addDenomination_spec scriptChange hvalue obfuScationDenominations h
    rw [fillSteps, hstep]
    dsimp only
    by_cases hzero : f₁.nValueLeft = 0
    · rw [if_pos hzero]
      exact ⟨_, used₁, f₁, rfl, h₁, List.subset_append_left _ _,
        fun _ => List.subset_append_right _ _⟩
    · rw [if_neg hzero]
      obtain ⟨tried₂, used₂, f₂, hrest, h₂, hsub, -⟩ := ih h₁
      exact ⟨tried₂, used₂, f₂, hrest, h₂, fun v hv => hsub (List.mem_append_left _ hv),
        fun _ v hv => hsub (List.mem_append_right _ hv)⟩

end Filling

section Locks

theorem mem_lockCoins {locked : Finset COutPoint} {vin : List CTxDSIn} {o : COutPoint} :
    o ∈ lockCoins locked vin ↔ o ∈ locked ∨ o ∈ vin.map (·.prevout) := by
  unfold lockCoins
  induction vin generalizing locked with
  | nil => exact (or_iff_left List.not_mem_nil).symm
  | cons v vin ih =>
    rw [List.foldl_cons, ih, Finset.mem_insert, List.map_cons, List.mem_cons, or_assoc,
      or_left_comm]

theorem mem_unlockCoins {locked : Finset COutPoint} {vin : List CTxDSIn} {o : COutPoint} :
    o ∈ unlockCoins locked vin ↔ o ∈ locked ∧ o ∉ vin.map (·.prevout) := by
  unfold unlockCoins
  induction vin generalizing locked with
  | nil => exact (and_iff_left List.not_mem_nil).symm
  | cons v vin ih =>
    rw [List.foldl_cons, ih, Finset.mem_erase, List.map_cons, List.mem_cons, not_or, and_assoc,
      and_left_comm]

end Locks

section Entries

open Mixing (usesDenomination testBit_getDenominations)

/-- An entry is made of these coins. -/
structure Entry (env : Env) (vin : List CTxDSIn) (vout : List CTxOut) (amount : CAmount)
    (coins : List COutput) : Prop where
  inputs : vin = coins.map COutput.txin
  distinct : (coins.map COutput.outpoint).Nodup
  wallet : ∀ c ∈ coins, c ∈ selectable env
  unlocked : ∀ c ∈ coins, c.outpoint ∉ env.setLockedCoins
  values : (coins.map COutput.nValue).Perm (vout.map CTxOut.nValue)
  amount : amount = (coins.map COutput.nValue).sum
  denominations : ∀ c ∈ coins, ∃ k, env.sessionDenom.getLsbD k = true ∧
    obfuScationDenominations[k]? = some c.nValue
  bits : ∀ k, env.sessionDenom.getLsbD k = true →
    ∃ c ∈ coins, obfuScationDenominations[k]? = some c.nValue

/-- The call ends: with an error, and no coin stays locked that was not locked before, or with an
entry of coins that satisfy `Q`, which are then locked too. -/
def Keeps (env : Env) (Q : COutput → Prop) : Option (Outcome × Finset COutPoint) → Prop
  | none => False
  | some (.error _, locked) => locked = env.setLockedCoins
  | some (.submitted vin vout amount, locked) =>
    (∃ coins, Entry env vin vout amount coins ∧ ∀ c ∈ coins, Q c) ∧
      locked = env.setLockedCoins ∪ (vin.map (·.prevout)).toFinset

theorem Keeps.imp {env : Env} {Q Q' : COutput → Prop} {result : Option (Outcome × Finset COutPoint)}
    (h : Keeps env Q result)
    (himp : ∀ vin vout amount coins, Entry env vin vout amount coins →
      (∀ c ∈ coins, Q c) → ∀ c ∈ coins, Q' c) : Keeps env Q' result := by
  match result, h with
  | some (.error _, _), h => exact h
  | some (.submitted vin vout amount, _), ⟨⟨coins, hentry, hcoins⟩, hlocked⟩ =>
    exact ⟨⟨coins, hentry, himp vin vout amount coins hentry hcoins⟩, hlocked⟩

theorem map_prevout_txin (l : List COutput) :
    (l.map COutput.txin).map (·.prevout) = l.map COutput.outpoint := by
  rw [List.map_map]
  rfl

variable {env : Env} {vCoins : List COutput} {fFound : ℕ → Bool} {s : Selected}
  {coins used : List COutput} {tried : List CAmount} {f : Filling}

/-- The bits of the outputs are the denominations of the coins that were used. -/
theorem FillInv.testBit (h : FillInv env.sessionDenom coins tried used f)
    (hcoins : ∀ c ∈ coins, (accepted env.sessionDenom c.nValue).isSome = true) (k : ℕ) :
    (getDenominations f.vOut).testBit k = true ↔
      ∃ c ∈ used, obfuScationDenominations[k]? = some c.nValue := by
  have hout : ∀ v : CAmount, v ∈ f.vOut.map CTxOut.nValue ↔ v ∈ used.map COutput.nValue := by
    intro v
    rw [h.values]
  have hdenoms : ∀ out ∈ f.vOut, out.nValue ∈ obfuScationDenominations := by
    intro out ho
    obtain ⟨c, hc, hcv⟩ := List.mem_map.mp ((hout _).mp (List.mem_map_of_mem ho))
    rw [← hcv]
    exact mem_denominations_of_accepted
      (hcoins c (h.perm.subset (List.mem_append_left _ hc)))
  rw [testBit_getDenominations hdenoms, Bool.and_eq_true, decide_eq_true_eq, usesDenomination,
    List.any_eq_true]
  simp only [beq_iff_eq]
  constructor
  · rintro ⟨-, out, ho, hk⟩
    obtain ⟨c, hc, hcv⟩ := List.mem_map.mp ((hout _).mp (List.mem_map_of_mem ho))
    exact ⟨c, hc, hcv ▸ hk⟩
  · rintro ⟨c, hc, hk⟩
    obtain ⟨out, ho, hov⟩ := List.mem_map.mp ((hout _).mpr (List.mem_map_of_mem hc))
    exact ⟨(List.getElem?_eq_some_iff.mp hk).1, out, ho, hov ▸ hk⟩

/-- The locks that stay until the outputs are looked at: those of the coins that were used. -/
theorem mem_locked (hinv : SelectInv env vCoins fFound s) (hperm : vCoins.Perm (selectable env))
    (h : FillInv env.sessionDenom s.vCoinsRet2 tried used f) (o : COutPoint) :
    o ∈ unlockCoins (lockCoins env.setLockedCoins s.vCoinsRet) f.vCoins ↔
      o ∈ env.setLockedCoins ∨ o ∈ used.map COutput.outpoint := by
  have hcoin : ∀ c ∈ s.vCoinsRet2, c ∈ selectable env :=
    fun c hc => hperm.subset (hinv.sublist.subset hc)
  have hsplit : o ∈ s.vCoinsRet2.map COutput.outpoint ↔
      o ∈ used.map COutput.outpoint ∨ o ∈ f.vCoins2.map COutput.outpoint := by
    rw [← (h.perm.map COutput.outpoint).mem_iff, List.map_append, List.mem_append]
  have hdistinct : (s.vCoinsRet2.map COutput.outpoint).Nodup :=
    ((hperm.map _).nodup_iff.mpr (selectable_nodup env)).sublist (hinv.sublist.map _)
  have hdisjoint : o ∈ used.map COutput.outpoint → o ∉ f.vCoins2.map COutput.outpoint := by
    rw [← (h.perm.map COutput.outpoint).nodup_iff, List.map_append] at hdistinct
    exact fun hu hl => List.disjoint_of_nodup_append hdistinct hu hl
  have hfree : o ∈ s.vCoinsRet2.map COutput.outpoint → o ∉ env.setLockedCoins := by
    intro ho
    obtain ⟨c, hc, rfl⟩ := List.mem_map.mp ho
    exact (mem_selectable (hcoin c hc)).1
  rw [mem_unlockCoins, mem_lockCoins, hinv.txins, h.left, map_prevout_txin, map_prevout_txin]
  tauto

theorem makeEntry_keeps (hinv : SelectInv env vCoins fFound s)
    (hperm : vCoins.Perm (selectable env)) (draws : Draws) :
    Keeps env (InRounds env) (makeEntry env draws s) := by
  have hcoin : ∀ c ∈ s.vCoinsRet2, c ∈ selectable env :=
    fun c hc => hperm.subset (hinv.sublist.subset hc)
  obtain ⟨tried, used, f, hfill, h, -, -⟩ := fillSteps_spec draws.scriptChange
    (fun c hc => (mem_selectable (hcoin c hc)).2) (5 + draws.getRandInt)
    (FillInv.start s hinv.txins hinv.value)
  have hlocked := mem_locked hinv hperm h
  have hused : ∀ c ∈ used, c ∈ s.vCoinsRet2 :=
    fun c hc => h.perm.subset (List.mem_append_left _ hc)
  have hfree : ∀ c ∈ used, c.outpoint ∉ env.setLockedCoins :=
    fun c hc => (mem_selectable (hcoin c (hused c hc))).1
  have hprevouts : f.vCoinsResult.map (·.prevout) = used.map COutput.outpoint := by
    rw [h.result, map_prevout_txin]
  unfold makeEntry
  rw [hfill]
  dsimp only
  by_cases hword : BitVec.ofNat 32 (getDenominations f.vOut) ≠ env.sessionDenom
  · rw [if_pos hword]
    -- the coins that were used are released
    refine Finset.ext fun o => ?_
    rw [mem_unlockCoins, hlocked, hprevouts, or_and_right, and_not_self_iff, or_false]
    refine and_iff_left_of_imp fun ho hu => ?_
    obtain ⟨c, hc, rfl⟩ := List.mem_map.mp hu
    exact hfree c hc ho
  rw [if_neg hword]
  have hsum := (h.perm.map COutput.nValue).sum_eq
  rw [List.map_append, List.sum_append, ← h.rest, ← hinv.value] at hsum
  refine ⟨⟨used, ?_, fun c hc => (hinv.eligible c (hused c hc)).2⟩, ?_⟩
  · exact
      { inputs := h.result
        distinct := by
          have hall := ((hperm.map _).nodup_iff.mpr (selectable_nodup env)).sublist
            (hinv.sublist.map _)
          rw [← (h.perm.map COutput.outpoint).nodup_iff, List.map_append] at hall
          exact hall.of_append_left
        wallet := fun c hc => hcoin c (hused c hc)
        unlocked := hfree
        values := by
          rw [← h.values]
          exact ((draws.shuffleOut.perm f.vOut).map _).symm
        amount := by rw [← hsum, add_sub_cancel_right]
        denominations := by
          intro c hc
          obtain ⟨k, hk⟩ :=
            Option.isSome_iff_exists.mp (hinv.eligible c (hused c hc)).1
          exact ⟨k, (accepted_eq_some hk).2⟩
        bits := by
          intro k hk
          refine (h.testBit (fun c hc => (hinv.eligible c hc).1) k).mp ?_
          rw [← not_not.mp hword, BitVec.getLsbD_ofNat, Bool.and_eq_true] at hk
          exact hk.2 }
  · refine Finset.ext fun o => ?_
    rw [hlocked, Finset.mem_union, List.mem_toFinset, hprevouts]

theorem selectCoinsByDenominations_spec (env : Env) (draws : Draws) :
    SelectPost env (coin / 10) (draws.shuffleCoins.shuffle (selectable env))
      (selectCoinsByDenominations env draws (coin / 10) obfuscationPoolMax) := by
  unfold selectCoinsByDenominations
  dsimp only
  have hperm := draws.shuffleCoins.perm (selectable env)
  have hvalue : ∀ c ∈ draws.shuffleCoins.shuffle (selectable env), 0 ≤ c.nValue :=
    fun c hc => (mem_selectable (hperm.subset hc)).2
  exact selectLoop_spec env draws.rand (by decide) _ le_rfl _ 0 hvalue (SelectInv.start env)

theorem prepareObfuscationDenominate_keeps (hlocked : env.isLocked = false)
    (hmin : 0 ≤ env.minRounds) (draws : Draws) :
    Keeps env (InRounds env) (prepareObfuscationDenominate env draws) := by
  unfold prepareObfuscationDenominate
  rw [hlocked, if_neg Bool.false_ne_true]
  by_cases hpending : pending env
  · rw [if_pos hpending]
    rfl
  rw [if_neg hpending, if_pos hmin]
  obtain ⟨b, s, fFound, hselect, hinv, -⟩ := selectCoinsByDenominations_spec env draws
  rw [hselect]
  cases b with
  | false => rfl
  | true => exact makeEntry_keeps hinv (draws.shuffleCoins.perm _) draws

/-- Coins of different denominations that are still looked for are taken one after the other. -/
theorem selectLoop_picked (env : Env) (rand : ℕ → ℕ) (nValueMin : CAmount) (size : ℕ)
    (picked rest : List COutput) (fFound : ℕ → Bool) (nValueMax : CAmount) (s : Selected)
    (hpicked : ∀ c ∈ picked, 0 ≤ c.nValue ∧ InRounds env c ∧
      ∃ k, accepted env.sessionDenom c.nValue = some k ∧ fFound k = false)
    (hdistinct : (picked.map COutput.nValue).Nodup)
    (hfits : s.nValueRet + (picked.map COutput.nValue).sum ≤ nValueMax) :
    ∃ fFound', selectLoop env rand nValueMin size (picked ++ rest) fFound nValueMax 0 s =
        selectLoop env rand nValueMin size rest fFound' nValueMax 0
          ⟨s.vCoinsRet ++ picked.map COutput.txin, s.vCoinsRet2 ++ picked,
            s.nValueRet + (picked.map COutput.nValue).sum⟩ ∧
      (∀ k, fFound k = true → fFound' k = true) ∧
      ∀ c ∈ picked, ∀ k, accepted env.sessionDenom c.nValue = some k → fFound' k = true := by
  induction picked generalizing fFound s with
  | nil =>
    refine ⟨fFound, ?_, fun _ h => h, fun c hc => absurd hc List.not_mem_nil⟩
    simp only [List.nil_append, List.map_nil, List.append_nil, List.sum_nil, add_zero]
  | cons c picked ih =>
    obtain ⟨⟨hc, hrounds, k, hk, hmissing⟩, hothers⟩ := List.forall_mem_cons.mp hpicked
    rw [List.map_cons, List.nodup_cons] at hdistinct
    rw [List.map_cons, List.sum_cons, ← add_assoc] at hfits
    have hsum : 0 ≤ (picked.map COutput.nValue).sum := by
      refine List.sum_nonneg fun x hx => ?_
      obtain ⟨c', hc', rfl⟩ := List.mem_map.mp hx
      exact (hothers c' hc').1
    have hsmall : ¬ nValueMax < s.nValueRet + c.nValue :=
      not_lt.mpr ((le_add_of_nonneg_right hsum).trans hfits)
    have hin : ¬ (env.maxRounds ≤ env.getInputObfuscationRounds c.outpoint ∨
        env.getInputObfuscationRounds c.outpoint < env.minRounds) := by
      rw [not_or, not_le, not_lt]
      exact hrounds.symm
    have hopen : ¬ fulfilled fFound = true := by
      intro hall
      rw [List.all_eq_true.mp hall k (List.mem_range.mpr (accepted_eq_some hk).1)] at hmissing
      cases hmissing
    -- the others are of other denominations
    have hothers' : ∀ c' ∈ picked, 0 ≤ c'.nValue ∧ InRounds env c' ∧
        ∃ j, accepted env.sessionDenom c'.nValue = some j ∧ (fFound j || j == k) = false := by
      intro c' hc'
      obtain ⟨hnonneg, hrounds', j, hj, hj'⟩ := hothers c' hc'
      refine ⟨hnonneg, hrounds', j, hj, ?_⟩
      rw [hj', Bool.false_or, beq_eq_false_iff_ne]
      rintro rfl
      have hsame : c'.nValue = c.nValue :=
        Option.some.inj ((accepted_eq_some hj).2.2.symm.trans (accepted_eq_some hk).2.2)
      exact hdistinct.1 (hsame ▸ List.mem_map_of_mem hc')
    obtain ⟨fFound', hloop, hkeeps, hraised⟩ :=
      @ih (fun j => fFound j || j == k) (s.add c) hothers' hdistinct.2 hfits
    refine ⟨fFound', ?_, fun j hj => hkeeps j (by rw [hj, Bool.true_or]), ?_⟩
    · rw [List.cons_append, selectLoop]
      dsimp only
      rw [if_neg hsmall, if_neg hin, if_neg hopen, hk]
      dsimp only
      rw [hloop]
      simp only [Selected.add, List.append_assoc, List.singleton_append, List.map_cons,
        List.sum_cons, add_assoc]
    · intro c' hc' j hj
      rcases List.mem_cons.mp hc' with rfl | hc'
      · obtain rfl := Option.some.inj (hk.symm.trans hj)
        exact hkeeps k (by rw [beq_self_eq_true, Bool.or_true])
      · exact hraised c' hc' j hj

/-- Once every denomination is there, the loop can stop at the next coin that it would take. -/
theorem selectLoop_stops (env : Env) {nValueMin : ℤ} (hmin : 5 ≤ nValueMin) {size : ℕ}
    (vCoins : List COutput) (hsize : vCoins.length ≤ size) (nValueMax : CAmount)
    (hvalue : ∀ c ∈ vCoins, 0 ≤ c.nValue) (hfull : fulfilled fFound = true)
    (henough : nValueMin ≤ s.nValueRet) (hsome : s.vCoinsRet ≠ []) :
    selectLoop env (fun _ => 0) nValueMin size vCoins fFound nValueMax 0 s = some (true, s) := by
  induction vCoins with
  | nil => rw [selectLoop, hfull, Bool.and_true, decide_eq_true henough]
  | cons c vCoins ih =>
    obtain ⟨hc, hvalue⟩ := List.forall_mem_cons.mp hvalue
    rw [List.length_cons] at hsize
    have hrest := ih (by omega) hvalue
    rw [selectLoop]
    dsimp only
    by_cases hlarge : nValueMax < s.nValueRet + c.nValue
    · rw [if_pos hlarge, hrest]
    rw [if_neg hlarge]
    by_cases hout : env.maxRounds ≤ env.getInputObfuscationRounds c.outpoint ∨
        env.getInputObfuscationRounds c.outpoint < env.minRounds
    · rw [if_pos hout, hrest]
    · have hfifth := fifth_ne_zero hmin henough hc (not_lt.mp hlarge)
      rw [if_neg hout, if_pos hfull, if_pos henough, if_neg (not_or.mpr ⟨hfifth, by omega⟩),
        Nat.zero_mod, if_pos (List.length_pos_iff.mpr hsome)]

/-- With one coin of every denomination of the session the entry is handed on with all of them. -/
theorem makeEntry_submits (hinv : SelectInv env vCoins fFound s)
    (hperm : vCoins.Perm (selectable env)) (hdistinct : (s.vCoinsRet2.map COutput.nValue).Nodup)
    (hbits : ∀ k, env.sessionDenom.getLsbD k = true →
      ∃ c ∈ s.vCoinsRet2, obfuScationDenominations[k]? = some c.nValue) (draws : Draws) :
    ∃ vin vout amount locked, makeEntry env draws s = some (.submitted vin vout amount, locked) ∧
      ∀ c ∈ s.vCoinsRet2, c.txin ∈ vin := by
  obtain ⟨tried, used, f, hfill, h, -, htried⟩ := fillSteps_spec draws.scriptChange
    (fun c hc => (mem_selectable (hperm.subset (hinv.sublist.subset hc))).2)
    (5 + draws.getRandInt) (FillInv.start s hinv.txins hinv.value)
  have hused : ∀ c ∈ s.vCoinsRet2, c ∈ used := by
    intro c hc
    have haccepted := (hinv.eligible c hc).1
    obtain ⟨c', hc', hvalue⟩ := h.tried c.nValue
      (htried (by omega) (mem_denominations_of_accepted haccepted)) haccepted ⟨c, hc, rfl⟩
    have hmem := h.perm.subset (List.mem_append_left _ hc')
    exact List.inj_on_of_nodup_map hdistinct hmem hc hvalue ▸ hc'
  have hword : BitVec.ofNat 32 (getDenominations f.vOut) = env.sessionDenom := by
    refine BitVec.eq_of_getLsbD_eq fun k hk => ?_
    rw [BitVec.getLsbD_ofNat, decide_eq_true hk, Bool.true_and, Bool.eq_iff_iff,
      h.testBit (fun c hc => (hinv.eligible c hc).1)]
    constructor
    · rintro ⟨c, hc, hvalue⟩
      obtain ⟨j, hj⟩ := Option.isSome_iff_exists.mp
        (hinv.eligible c (h.perm.subset (List.mem_append_left _ hc))).1
      obtain ⟨-, hbit, hdenom⟩ := accepted_eq_some hj
      rwa [denominations_inj hvalue hdenom]
    · intro hbit
      obtain ⟨c, hc, hvalue⟩ := hbits k hbit
      exact ⟨c, hused c hc, hvalue⟩
  refine ⟨f.vCoinsResult, draws.shuffleOut.shuffle f.vOut, s.nValueRet - f.nValueLeft,
    unlockCoins (lockCoins env.setLockedCoins s.vCoinsRet) f.vCoins, ?_, fun c hc => ?_⟩
  · unfold makeEntry
    rw [hfill]
    dsimp only
    rw [if_neg (not_not.mpr hword)]
  · rw [h.result]
    exact List.mem_map_of_mem (hused c hc)

end Entries

section Picks

/-- There is a coin of every denomination of the session word. -/
def Served (env : Env) : Prop :=
  ∀ k, env.sessionDenom.getLsbD k = true →
    ∃ c ∈ selectable env, InRounds env c ∧ obfuScationDenominations[k]? = some c.nValue

/-- One coin of every denomination of the session word. -/
structure Picks (env : Env) (picked : List COutput) : Prop where
  distinct : (picked.map COutput.nValue).Nodup
  wallet : ∀ c ∈ picked, c ∈ selectable env
  eligible : ∀ c ∈ picked, InRounds env c ∧ ∃ k, accepted env.sessionDenom c.nValue = some k
  serves : ∀ k, env.sessionDenom.getLsbD k = true →
    ∃ c ∈ picked, obfuScationDenominations[k]? = some c.nValue

variable {env : Env} {p : COutput → Bool} {picked : List COutput}

/-- Any coin can be the one of its denomination. -/
theorem Served.picks (h : Served env) {c : COutput} (hc : c ∈ selectable env)
    (hrounds : InRounds env c) (haccepted : (accepted env.sessionDenom c.nValue).isSome = true) :
    ∃ p, Picks env ((selectable env).filter p) ∧ c ∈ (selectable env).filter p := by
  obtain ⟨k, hk⟩ := Option.isSome_iff_exists.mp haccepted
  obtain ⟨-, hbit, hdenom⟩ := accepted_eq_some hk
  have hchoice : ∀ j, ∃ d, env.sessionDenom.getLsbD j = true → (j = k → d = c) ∧
      d ∈ selectable env ∧ InRounds env d ∧ obfuScationDenominations[j]? = some d.nValue := by
    intro j
    by_cases hj : j = k
    · exact ⟨c, fun _ => ⟨fun _ => rfl, hc, hrounds, hj ▸ hdenom⟩⟩
    by_cases hset : env.sessionDenom.getLsbD j = true
    · obtain ⟨d, hd⟩ := h j hset
      exact ⟨d, fun _ => ⟨fun h => absurd h hj, hd⟩⟩
    · exact ⟨c, fun h => absurd h hset⟩
  choose pick hpick using hchoice
  let bits := (List.range 6).filter fun j => env.sessionDenom.getLsbD j
  have hmem : ∀ d, d ∈ (selectable env).filter (fun d => decide (d ∈ bits.map pick)) ↔
      ∃ j, env.sessionDenom.getLsbD j = true ∧ pick j = d := by
    intro d
    simp only [bits, List.mem_filter, decide_eq_true_eq, List.mem_map, List.mem_range]
    constructor
    · rintro ⟨-, j, ⟨-, hj⟩, rfl⟩
      exact ⟨j, hj, rfl⟩
    · rintro ⟨j, hj, rfl⟩
      obtain ⟨-, hselectable, -, hvalue⟩ := hpick j hj
      exact ⟨hselectable, j, ⟨(List.getElem?_eq_some_iff.mp hvalue).1, hj⟩, rfl⟩
  refine ⟨fun d => decide (d ∈ bits.map pick), ?_, (hmem c).mpr ⟨k, hbit, (hpick k hbit).1 rfl⟩⟩
  exact
    { distinct := by
        refine List.Nodup.map_on (fun d hd d' hd' hvalue => ?_)
          ((selectable_nodup env).of_map.filter _)
        obtain ⟨j, hj, rfl⟩ := (hmem d).mp hd
        obtain ⟨j', hj', rfl⟩ := (hmem d').mp hd'
        rw [denominations_inj (hpick j hj).2.2.2 (hvalue ▸ (hpick j' hj').2.2.2)]
      wallet := fun d hd => List.mem_of_mem_filter hd
      eligible := by
        intro d hd
        obtain ⟨j, hj, rfl⟩ := (hmem d).mp hd
        obtain ⟨-, -, hrounds, hvalue⟩ := hpick j hj
        exact ⟨hrounds, j, accepted_of_bit hj hvalue⟩
      serves := fun j hj => ⟨pick j, (hmem _).mpr ⟨j, hj, rfl⟩, (hpick j hj).2.2.2⟩ }

/-- All denominations together stay under the maximum of the pool. -/
theorem Picks.sum_le (h : Picks env picked) :
    (picked.map COutput.nValue).sum ≤ obfuscationPoolMax := by
  have hsubset : picked.map COutput.nValue ⊆ obfuScationDenominations := by
    intro v hv
    obtain ⟨c, hc, rfl⟩ := List.mem_map.mp hv
    obtain ⟨-, k, hk⟩ := h.eligible c hc
    exact List.mem_of_getElem? (accepted_eq_some hk).2.2
  obtain ⟨l, hperm, hsublist⟩ := h.distinct.subperm hsubset
  rw [← hperm.sum_eq]
  exact (hsublist.sum_le_sum (by decide)).trans (by decide)

/-- The order that puts some coins before the others. -/
def frontShuffle (p : COutput → Bool) : Shuffle COutput where
  shuffle l := l.filter p ++ l.filter (!p ·)
  perm l := List.filter_append_perm p l

def frontDraws (p : COutput → Bool) : Draws where
  shuffleCoins := frontShuffle p
  rand := fun _ => 0
  getRandInt := 0
  scriptChange := fun _ => []
  shuffleOut := ⟨id, List.Perm.refl⟩

theorem Picks.select (h : Picks env ((selectable env).filter p))
    (hne : (selectable env).filter p ≠ []) :
    selectCoinsByDenominations env (frontDraws p) (coin / 10) obfuscationPoolMax =
      some (true, ⟨((selectable env).filter p).map COutput.txin, (selectable env).filter p,
        (((selectable env).filter p).map COutput.nValue).sum⟩) := by
  have hnonneg : ∀ c ∈ selectable env, 0 ≤ c.nValue := fun c hc => (mem_selectable hc).2
  have hsize : ((selectable env).filter (!p ·)).length ≤
      (((selectable env).filter p) ++ (selectable env).filter (!p ·)).length := by
    rw [List.length_append]
    exact Nat.le_add_left _ _
  obtain ⟨fFound', hloop, hkeeps, hraised⟩ := selectLoop_picked env (fun _ => 0) (coin / 10)
    (((selectable env).filter p) ++ (selectable env).filter (!p ·)).length
    ((selectable env).filter p) ((selectable env).filter (!p ·))
    (fun k => !env.sessionDenom.getLsbD k) obfuscationPoolMax {} (by
      intro c hc
      obtain ⟨hrounds, k, hk⟩ := h.eligible c hc
      refine ⟨hnonneg c (h.wallet c hc), hrounds, k, hk, ?_⟩
      rw [(accepted_eq_some hk).2.1, Bool.not_true]) h.distinct
    (by rw [zero_add]; exact h.sum_le)
  have hfull : fulfilled fFound' = true := by
    refine List.all_eq_true.mpr fun k _ => ?_
    cases hbit : env.sessionDenom.getLsbD k with
    | false => exact hkeeps k (by rw [hbit, Bool.not_false])
    | true =>
      obtain ⟨c, hc, hvalue⟩ := h.serves k hbit
      exact hraised c hc k (accepted_of_bit hbit hvalue)
  have henough : coin / 10 ≤ (((selectable env).filter p).map COutput.nValue).sum := by
    obtain ⟨c, hc⟩ := List.exists_mem_of_ne_nil _ hne
    obtain ⟨-, k, hk⟩ := h.eligible c hc
    refine (denomination_pos (List.mem_of_getElem? (accepted_eq_some hk).2.2)).trans
      (List.single_le_sum (fun v hv => ?_) _ (List.mem_map_of_mem hc))
    obtain ⟨c', hc', rfl⟩ := List.mem_map.mp hv
    exact hnonneg c' (h.wallet c' hc')
  unfold selectCoinsByDenominations
  dsimp only [frontDraws, frontShuffle]
  rw [hloop]
  simp only [List.nil_append, zero_add]
  exact selectLoop_stops env (by decide) _ hsize _
    (fun c hc => hnonneg c (List.mem_of_mem_filter hc)) hfull henough
    (fun hnil => hne (List.map_eq_nil_iff.mp hnil))

/-- Chance can take any coins that serve the session word. -/
theorem Picks.submits (h : Picks env ((selectable env).filter p))
    (hne : (selectable env).filter p ≠ []) (hlocked : env.isLocked = false)
    (hmin : 0 ≤ env.minRounds) (hpending : ¬ pending env = true) :
    ∃ vin vout amount locked, prepareObfuscationDenominate env (frontDraws p) =
        some (.submitted vin vout amount, locked) ∧
      ∀ c ∈ (selectable env).filter p, c.txin ∈ vin := by
  obtain ⟨b, s, fFound, hselect, hinv, -⟩ := selectCoinsByDenominations_spec env (frontDraws p)
  have hpicked := hselect.symm.trans (h.select hne)
  obtain ⟨rfl, rfl⟩ := Prod.mk.inj (Option.some.inj hpicked)
  unfold prepareObfuscationDenominate
  rw [hlocked, if_neg Bool.false_ne_true, if_neg hpending, if_pos hmin, hselect]
  exact makeEntry_submits hinv ((frontDraws p).shuffleCoins.perm _) h.distinct h.serves _

/-- Entries are made of coins that the wallet can spend when there is an entry in the pool already,
when a denomination of the session has no coin, or when every coin that the session takes can be
spent: the selection does not look at `fSpendable`. -/
theorem entry_keeps {env : Env} (hlocked : env.isLocked = false) (hmin : 0 ≤ env.minRounds) :
    (∀ draws, Keeps env (fun c => c.fSpendable = true) (prepareObfuscationDenominate env draws)) ↔
      pending env = true ∨ ¬ Served env ∨ ∀ c ∈ selectable env, InRounds env c →
        (accepted env.sessionDenom c.nValue).isSome = true → c.fSpendable = true := by
  constructor
  · intro h
    refine or_iff_not_imp_left.mpr fun hpending => or_iff_not_imp_left.mpr fun hserved => ?_
    intro c hc hrounds haccepted
    obtain ⟨p, hpicks, hcp⟩ := (not_not.mp hserved).picks hc hrounds haccepted
    obtain ⟨vin, vout, amount, locked, hresult, hinputs⟩ :=
      hpicks.submits (List.ne_nil_of_mem hcp) hlocked hmin hpending
    have hkeeps := h (frontDraws p)
    rw [hresult] at hkeeps
    obtain ⟨⟨coins, hentry, hspendable⟩, -⟩ := hkeeps
    have hin := hinputs c hcp
    rw [hentry.inputs] at hin
    obtain ⟨d, hd, htxin⟩ := List.mem_map.mp hin
    -- the outpoint tells the coin
    have hsame : d = c := List.inj_on_of_nodup_map (selectable_nodup env) (hentry.wallet d hd) hc
      (congrArg (fun txin : CTxDSIn => txin.prevout) htxin)
    exact hsame ▸ hspendable d hd
  · intro h draws
    rcases h with hpending | h
    · unfold prepareObfuscationDenominate
      rw [hlocked, if_neg Bool.false_ne_true, if_pos hpending]
      rfl
    refine (prepareObfuscationDenominate_keeps hlocked hmin draws).imp
      fun vin vout amount coins hentry hrounds c hc => ?_
    have hserved : Served env := by
      intro k hk
      obtain ⟨d, hd, hvalue⟩ := hentry.bits k hk
      exact ⟨d, hentry.wallet d hd, hrounds d hd, hvalue⟩
    obtain ⟨k, hbit, hvalue⟩ := hentry.denominations c hc
    refine (h.resolve_left (not_not.mpr hserved)) c (hentry.wallet c hc) (hrounds c hc) ?_
    rw [accepted_of_bit hbit hvalue]
    rfl

/-- A wallet with one coin of the smallest denomination. -/
def oneCoinWallet (mine : ℕ) : Wallet where
  mapWallet := [⟨⟨7, 1, [{ prevout := ⟨5, 0⟩ }],
    [{ nValue := coin / 10 + 100, scriptPubKey := [1] }], 0⟩, true, true, 0, 10, false,
    fun _ => false⟩]
  isMine := fun _ => mine
  fMasterNode := false
  currentCollateral := 15000 * coin
  hashes_nodup := List.nodup_singleton _
  vout_lt := by decide
  nValue_nonneg := by decide

def oneCoinEnv (mine : ℕ) : Env where
  w := oneCoinWallet mine
  isLocked := false
  poolState := .acceptingEntries
  entriesCount := 0
  sessionDenom := 0x20#32
  setLockedCoins := ∅
  minRounds := 0
  maxRounds := 2
  getInputObfuscationRounds := fun _ => 0

theorem entry_keeps_spendable : Keeps (oneCoinEnv 4) (fun c => c.fSpendable = true)
    (prepareObfuscationDenominate (oneCoinEnv 4) (frontDraws fun _ => true)) := by
  have hspendable : ∀ c ∈ selectable (oneCoinEnv 4), c.fSpendable = true := by decide
  exact (entry_keeps rfl (by decide)).mpr (.inr (.inr fun c hc _ _ => hspendable c hc)) _

/-- An entry with the coin of a script that the wallet only watches. -/
theorem watch_only_entry : ¬ Keeps (oneCoinEnv 2) (fun c => c.fSpendable = true)
    (prepareObfuscationDenominate (oneCoinEnv 2) (frontDraws fun _ => true)) := by
  have hentry : ∃ vin vout amount locked,
      prepareObfuscationDenominate (oneCoinEnv 2) (frontDraws fun _ => true) =
        some (.submitted vin vout amount, locked) ∧ vin ≠ [] := ⟨_, _, _, _, rfl, by decide⟩
  have hwatched : ∀ c ∈ selectable (oneCoinEnv 2), c.fSpendable = false := by decide
  obtain ⟨vin, vout, amount, locked, hresult, hne⟩ := hentry
  rw [hresult]
  rintro ⟨⟨coins, hcoins, hspendable⟩, -⟩
  rw [hcoins.inputs] at hne
  obtain ⟨c, hc⟩ := List.exists_mem_of_ne_nil coins fun h => hne (h ▸ rfl)
  exact Bool.false_ne_true ((hwatched c (hcoins.wallet c hc)).symm.trans (hspendable c hc))

end Picks

end Scrypta.MixingEntries
