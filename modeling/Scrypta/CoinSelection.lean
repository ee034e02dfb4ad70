import Mathlib.Algebra.Order.Group.Int
import Mathlib.Data.Finset.Image
import Mathlib.Data.List.Sort
import Scrypta.Primitives
import Scrypta.Toolkit.Picks

/-! How the wallet selects the coins for a payment. -/

namespace Scrypta.CoinSelection

open Picks (pick)

def cent : CAmount := 1000000

/-- An output of a transaction of the wallet. The transaction is known by its hash. -/
structure COutput where
  outpoint : COutPoint
  nValue : CAmount
  nDepth : ℤ
  fSpendable : Bool
  isFromMe : Bool

abbrev Coin := CAmount × COutPoint

def COutput.coin (output : COutput) : Coin := (output.nValue, output.outpoint)

/-- A selection is made, or there is too little to select from. -/
structure Selection where
  fSelected : Bool
  setCoinsRet : Finset COutPoint
  nValueRet : CAmount

/-- The coins are put into the set one by one. -/
def selectAll (coins : List Coin) : Selection :=
  coins.foldl (fun s coin =>
    ⟨true, insert coin.2 s.setCoinsRet, toInt64 (s.nValueRet + coin.1)⟩) ⟨true, ∅, 0⟩

/-! The search for a subset. -/

structure Search where
  nTotal : CAmount
  vfIncluded : List Bool
  fReachedTarget : Bool
  nBest : CAmount
  vfBest : List Bool

section Search

variable (vValue : List CAmount) (nTargetValue : CAmount)

/-- A value that reaches the target is left out again. -/
def tryValue (s : Search) (i : ℕ) : Search :=
  let nTotal := toInt64 (s.nTotal + vValue.getD i 0)
  let vfIncluded := s.vfIncluded.set i true
  if nTargetValue ≤ nTotal then
    { nTotal := toInt64 (nTotal - vValue.getD i 0)
      vfIncluded := vfIncluded.set i false
      fReachedTarget := true
      nBest := if nTotal < s.nBest then nTotal else s.nBest
      vfBest := if nTotal < s.nBest then vfIncluded else s.vfBest }
  else { s with nTotal := nTotal, vfIncluded := vfIncluded }

def pass (takes : Search → ℕ → Bool) (s : Search) : Search :=
  (List.range vValue.length).foldl
    (fun s i => if takes s i then tryValue vValue nTargetValue s i else s) s

/-- At first a coin is tossed for every value; where the target is not reached, the values that are
not included yet follow. -/
def repetition (toss : ℕ → Bool) (s : Search) : Search :=
  let s := { s with
    nTotal := 0
    vfIncluded := List.replicate vValue.length false
    fReachedTarget := false }
  let s := pass vValue nTargetValue (fun _ i => toss i) s
  if s.fReachedTarget then s
  else pass vValue nTargetValue (fun s i => !s.vfIncluded.getD i false) s

def approximateBestSubset (nTotalLower : CAmount) (insecureRand : ℕ → ℕ → Bool) : Search :=
  (List.range 1000).foldl
    (fun s nRep =>
      if s.nBest = nTargetValue then s else repetition vValue nTargetValue (insecureRand nRep) s)
    { nTotal := 0
      vfIncluded := []
      fReachedTarget := false
      nBest := nTotalLower
      vfBest := List.replicate vValue.length true }

end Search

/-! The passes over the outputs. -/

structure Scan where
  vValue : List Coin
  nTotalLower : CAmount
  coinLowestLarger : Option Coin

section Select

variable (obfuScationDenominations : List CAmount) (nTargetValue : CAmount)
  (nConfMine nConfTheirs : ℤ)

def isDenominatedAmount (nInputAmount : CAmount) : Bool :=
  obfuScationDenominations.any fun d => nInputAmount == d

/-- An output that is not denominated goes before one that is. -/
def lessThenDenom (out1 out2 : COutput) : Bool :=
  !isDenominatedAmount obfuScationDenominations out1.nValue &&
    isDenominatedAmount obfuScationDenominations out2.nValue

/-- Spendable, and deep enough. -/
def eligible (output : COutput) : Bool :=
  output.fSpendable &&
    !decide (output.nDepth < if output.isFromMe then nConfMine else nConfTheirs)

/-- The outputs that the loop does not skip. -/
def considered (tryDenom : Bool) (vCoins : List COutput) : List Coin :=
  (vCoins.filter fun output => eligible nConfMine nConfTheirs output &&
    (tryDenom || !isDenominatedAmount obfuScationDenominations output.nValue)).map COutput.coin

/-- The loop over the outputs, which ends early at a coin of the very value. -/
def scan : List Coin → Scan → Coin ⊕ Scan
  | [], s => .inr s
  | coin :: coins, s =>
    if coin.1 = nTargetValue then .inl coin
    else if coin.1 < toInt64 (nTargetValue + cent) then
      scan coins { s with
        vValue := s.vValue ++ [coin]
        nTotalLower := toInt64 (s.nTotalLower + coin.1) }
    else if coin.1 < s.coinLowestLarger.elim maxAmount (·.1) then
      scan coins { s with coinLowestLarger := some coin }
    else scan coins s

/-- What a pass leads to. -/
inductive Outcome where
  | found (coins : List Coin)
  | more
  | solve (s : Scan)

def tryPass (tryDenom : Bool) (vCoins : List COutput) : Outcome :=
  match scan nTargetValue
    (considered obfuScationDenominations nConfMine nConfTheirs tryDenom vCoins) ⟨[], 0, none⟩ with
  | .inl coin => .found [coin]
  | .inr s =>
    if s.nTotalLower = nTargetValue then .found s.vValue
    else if s.nTotalLower < nTargetValue then
      match s.coinLowestLarger with
      | none => .more
      | some coin => .found [coin]
    else .solve s

/-- The second search, with random bits of its own, is for a sum that leaves a change. -/
def bestSubset (vValue : List Coin) (nTotalLower : CAmount)
    (insecureRand insecureRand' : ℕ → ℕ → Bool) : Search :=
  let best := approximateBestSubset (vValue.map (·.1)) nTargetValue nTotalLower insecureRand
  if best.nBest ≠ nTargetValue ∧ toInt64 (nTargetValue + cent) ≤ nTotalLower then
    approximateBestSubset (vValue.map (·.1)) (toInt64 (nTargetValue + cent)) nTotalLower
      insecureRand'
  else best

/-- The best subset, or the next larger coin. -/
def solveSubset (s : Scan) (insecureRand insecureRand' : ℕ → ℕ → Bool) : List Coin :=
  let vValue := s.vValue.insertionSort fun a b => b.1 ≤ a.1
  let best := bestSubset nTargetValue vValue s.nTotalLower insecureRand insecureRand'
  match s.coinLowestLarger with
  | none => pick vValue best.vfBest
  | some coin =>
    if (best.nBest ≠ nTargetValue ∧ best.nBest < toInt64 (nTargetValue + cent)) ∨
        coin.1 ≤ best.nBest then [coin]
    else pick vValue best.vfBest

/-- The random choices of a call. -/
structure Randomness where
  shuffle : List COutput → List COutput
  perm : ∀ vCoins, (shuffle vCoins).Perm vCoins
  first : ℕ → ℕ → Bool
  second : ℕ → ℕ → Bool

def selectCoinsMinConf (vCoins : List COutput) (rand : Randomness) : Selection :=
  let vCoins := (rand.shuffle vCoins).insertionSort fun a b =>
    lessThenDenom obfuScationDenominations b a = false
  match tryPass obfuScationDenominations nTargetValue nConfMine nConfTheirs false vCoins with
  | .found coins => selectAll coins
  | .solve s => selectAll (solveSubset nTargetValue s rand.first rand.second)
  | .more =>
    match tryPass obfuScationDenominations nTargetValue nConfMine nConfTheirs true vCoins with
    | .found coins => selectAll coins
    | .solve s => selectAll (solveSubset nTargetValue s rand.first rand.second)
    | .more => ⟨false, ∅, 0⟩

end Select

/-! The search keeps the sums of what it marks. -/

section Searching

variable {vValue : List CAmount} {nTargetValue : CAmount} {s : Search} {i : ℕ}

/-- The best sum is the one of the marked values, and reaches the target. -/
structure Best (vValue : List CAmount) (nTargetValue : CAmount) (s : Search) : Prop where
  sum : s.nBest = (pick vValue s.vfBest).sum
  reached : nTargetValue ≤ s.nBest

structure Kept (vValue : List CAmount) (nTargetValue : CAmount) (s : Search) : Prop
    extends Best vValue nTargetValue s where
  length : s.vfIncluded.length = vValue.length
  total : s.nTotal = (pick vValue s.vfIncluded).sum

theorem toInt64_sum_pick (hpos : ∀ v ∈ vValue, 0 ≤ v) (hsum : vValue.sum ≤ maxAmount)
    (flags : List Bool) : toInt64 (pick vValue flags).sum = (pick vValue flags).sum := by
  have hlow := Picks.sum_pick_nonneg hpos flags
  have hhigh := (Picks.sum_pick_le hpos flags).trans hsum
  refine toInt64_eq_self (le_trans (by decide) hlow) (lt_of_le_of_lt hhigh (by decide))

theorem Kept.tryValue (h : Kept vValue nTargetValue s) (hpos : ∀ v ∈ vValue, 0 ≤ v)
    (hsum : vValue.sum ≤ maxAmount) (hi : i < vValue.length)
    (hflag : s.vfIncluded[i]? = some false) :
    Kept vValue nTargetValue (tryValue vValue nTargetValue s i) := by
  have hvalue : vValue[i]? = some (vValue.getD i 0) := by
    rw [List.getD_eq_getElem?_getD, List.getElem?_eq_getElem hi, Option.getD_some]
  have hmore := Picks.sum_pick_set hvalue hflag
  have htotal : toInt64 (s.nTotal + vValue.getD i 0) =
      (pick vValue (s.vfIncluded.set i true)).sum := by
    rw [h.total, ← hmore, toInt64_sum_pick hpos hsum]
  have hback : toInt64 ((pick vValue (s.vfIncluded.set i true)).sum - vValue.getD i 0) =
      (pick vValue s.vfIncluded).sum := by
    rw [hmore, add_sub_cancel_right, toInt64_sum_pick hpos hsum]
  unfold CoinSelection.tryValue
  dsimp only
  rw [htotal, hback, Picks.set_set_back hflag]
  split
  · next hreached =>
    refine ⟨⟨?_, ?_⟩, h.length, rfl⟩
    · dsimp only
      split
      · rfl
      · exact h.sum
    · dsimp only
      split
      · exact hreached
      · exact h.reached
  · exact ⟨⟨h.sum, h.reached⟩, (List.length_set).trans h.length, rfl⟩

theorem getElem?_tryValue {j : ℕ} (hj : i ≠ j) :
    (tryValue vValue nTargetValue s i).vfIncluded[j]? = s.vfIncluded[j]? := by
  unfold tryValue
  dsimp only
  split
  · rw [List.getElem?_set_ne hj, List.getElem?_set_ne hj]
  · rw [List.getElem?_set_ne hj]

/-- The first pass meets every value before it is marked. -/
theorem Kept.pass_toss (h : Kept vValue nTargetValue s) (hpos : ∀ v ∈ vValue, 0 ≤ v)
    (hsum : vValue.sum ≤ maxAmount) (toss : ℕ → Bool)
    (hfresh : ∀ j < vValue.length, s.vfIncluded[j]? = some false) :
    Kept vValue nTargetValue (pass vValue nTargetValue (fun _ i => toss i) s) := by
  have hrun : ∀ n ≤ vValue.length,
      let s' := (List.range n).foldl
        (fun s i => if toss i then CoinSelection.tryValue vValue nTargetValue s i else s) s
      Kept vValue nTargetValue s' ∧
        ∀ j, n ≤ j → j < vValue.length → s'.vfIncluded[j]? = some false := by
    intro n hn
    induction n with
    | zero => exact ⟨h, fun j _ hj => hfresh j hj⟩
    | succ n ih =>
      obtain ⟨hkept, hrest⟩ := ih (by omega)
      rw [List.range_succ, List.foldl_append, List.foldl_cons, List.foldl_nil]
      split
      · refine ⟨hkept.tryValue hpos hsum (by omega) (hrest n le_rfl (by omega)), fun j hj hlt => ?_⟩
        rw [getElem?_tryValue (by omega)]
        exact hrest j (by omega) hlt
      · exact ⟨hkept, fun j hj hlt => hrest j (by omega) hlt⟩
  exact (hrun vValue.length le_rfl).1

theorem Kept.pass_rest (h : Kept vValue nTargetValue s) (hpos : ∀ v ∈ vValue, 0 ≤ v)
    (hsum : vValue.sum ≤ maxAmount) : Kept vValue nTargetValue
      (pass vValue nTargetValue (fun s i => !s.vfIncluded.getD i false) s) := by
  refine List.foldlRecOn (motive := fun s => Kept vValue nTargetValue s) _ _ h
    fun s hs i hi => ?_
  have hlt : i < vValue.length := List.mem_range.1 hi
  split
  · next hfree =>
    refine hs.tryValue hpos hsum hlt ?_
    have hlen : i < s.vfIncluded.length := hs.length ▸ hlt
    dsimp only at hfree
    rw [List.getD_eq_getElem?_getD, List.getElem?_eq_getElem hlen, Option.getD_some,
      Bool.not_eq_true'] at hfree
    rw [List.getElem?_eq_getElem hlen, hfree]
  · exact hs

theorem Best.repetition (h : Best vValue nTargetValue s) (hpos : ∀ v ∈ vValue, 0 ≤ v)
    (hsum : vValue.sum ≤ maxAmount) (toss : ℕ → Bool) :
    Best vValue nTargetValue (repetition vValue nTargetValue toss s) := by
  have hstart : Kept vValue nTargetValue { s with
      nTotal := 0
      vfIncluded := List.replicate vValue.length false
      fReachedTarget := false } := by
    refine ⟨⟨h.sum, h.reached⟩, List.length_replicate, ?_⟩
    rw [Picks.pick_false]
    rfl
  have hfirst := hstart.pass_toss hpos hsum toss fun j hj => by
    rw [List.getElem?_replicate, if_pos hj]
  unfold CoinSelection.repetition
  dsimp only
  split
  · exact hfirst.toBest
  · exact (hfirst.pass_rest hpos hsum).toBest

theorem best_approximateBestSubset (hpos : ∀ v ∈ vValue, 0 ≤ v) (hsum : vValue.sum ≤ maxAmount)
    (hreached : nTargetValue ≤ vValue.sum) (insecureRand : ℕ → ℕ → Bool) :
    Best vValue nTargetValue
      (approximateBestSubset vValue nTargetValue vValue.sum insecureRand) := by
  refine List.foldlRecOn (motive := fun s => Best vValue nTargetValue s) _ _ ⟨?_, hreached⟩
    fun s hs nRep _ => ?_
  · rw [Picks.pick_true]
  · split
    · exact hs
    · exact hs.repetition hpos hsum _

end Searching

/-! What a pass finds. -/

section Passing

variable {nTargetValue : CAmount} {seen coins : List Coin} {s : Scan}

def worth (coins : List Coin) : CAmount := (coins.map (·.1)).sum

/-- Values that can be added up, below the value that stands for no coin. -/
structure Summable (coins : List Coin) : Prop where
  nonneg : ∀ coin ∈ coins, 0 ≤ coin.1
  lt : ∀ coin ∈ coins, coin.1 < maxAmount
  sum : worth coins ≤ maxAmount

theorem worth_append (coins coins' : List Coin) :
    worth (coins ++ coins') = worth coins + worth coins' := by
  rw [worth, List.map_append, List.sum_append]
  rfl

theorem worth_perm {coins' : List Coin} (h : coins.Perm coins') : worth coins = worth coins' :=
  (h.map Prod.fst).sum_eq

theorem worth_le_of_subperm {coins' : List Coin} (h : Summable coins)
    (hsub : coins'.Subperm coins) : worth coins' ≤ worth coins := by
  obtain ⟨between, hperm, hsublist⟩ := hsub
  have hle : worth between ≤ worth coins := (hsublist.map (·.1)).sum_le_sum fun v hv => by
    obtain ⟨coin, hcoin, rfl⟩ := List.mem_map.1 hv
    exact h.nonneg coin hcoin
  exact le_of_eq_of_le (worth_perm hperm).symm hle

theorem Summable.of_subperm {coins' : List Coin} (h : Summable coins)
    (hsub : coins'.Subperm coins) : Summable coins' :=
  ⟨fun coin hcoin => h.nonneg coin (hsub.subset hcoin),
    fun coin hcoin => h.lt coin (hsub.subset hcoin), (worth_le_of_subperm h hsub).trans h.sum⟩

theorem worth_nonneg (h : Summable coins) : 0 ≤ worth coins :=
  List.sum_nonneg fun v hv => by
    obtain ⟨coin, hcoin, rfl⟩ := List.mem_map.1 hv
    exact h.nonneg coin hcoin

theorem toInt64_worth (h : Summable coins) : toInt64 (worth coins) = worth coins :=
  toInt64_eq_self (le_trans (by decide) (worth_nonneg h)) (lt_of_le_of_lt h.sum (by decide))

/-- The coins that are not much larger than the target, with their sum, and one of the others. -/
structure Scanned (nTargetValue : CAmount) (coins : List Coin) (s : Scan) : Prop where
  vValue : s.vValue = coins.filter fun coin => decide (coin.1 < nTargetValue + cent)
  nTotalLower : s.nTotalLower = worth s.vValue
  larger : ∀ coin, s.coinLowestLarger = some coin → coin ∈ coins ∧ nTargetValue + cent ≤ coin.1
  lower : s.coinLowestLarger = none → ∀ coin ∈ coins, coin.1 < nTargetValue + cent

theorem Scanned.sublist (h : Scanned nTargetValue coins s) : s.vValue.Sublist coins :=
  h.vValue ▸ List.filter_sublist

theorem scanned_start (nTargetValue : CAmount) : Scanned nTargetValue [] ⟨[], 0, none⟩ :=
  ⟨rfl, rfl, nofun, fun _ => nofun⟩

/-- A step of the loop, for a coin that has not the very value of the target. -/
theorem scan_spec (htarget : toInt64 (nTargetValue + cent) = nTargetValue + cent)
    (hs : Scanned nTargetValue seen s) (hsum : Summable (seen ++ coins)) :
    (∀ coin, scan nTargetValue coins s = .inl coin → coin ∈ coins ∧ coin.1 = nTargetValue) ∧
      ∀ s', scan nTargetValue coins s = .inr s' → Scanned nTargetValue (seen ++ coins) s' := by
  induction coins generalizing seen s with
  | nil =>
    refine ⟨fun coin h => (nomatch h), fun s' h => ?_⟩
    obtain rfl := Sum.inr.inj h
    rwa [List.append_nil]
  | cons coin coins ih =>
    have hassoc : seen ++ coin :: coins = (seen ++ [coin]) ++ coins := by
      rw [List.append_assoc, List.singleton_append]
    have hmem : coin ∈ seen ++ coin :: coins :=
      List.mem_append_right _ List.mem_cons_self
    have hfilter : (seen ++ [coin]).filter (fun c => decide (c.1 < nTargetValue + cent)) =
        s.vValue ++ [coin].filter (fun c => decide (c.1 < nTargetValue + cent)) := by
      rw [List.filter_append, hs.vValue]
    have hrest : ∀ {s' : Scan}, Scanned nTargetValue (seen ++ [coin]) s' →
        (∀ c, scan nTargetValue coins s' = .inl c → c ∈ coin :: coins ∧ c.1 = nTargetValue) ∧
          ∀ s'', scan nTargetValue coins s' = .inr s'' →
            Scanned nTargetValue (seen ++ coin :: coins) s'' := by
      intro s' hs'
      rw [hassoc] at hsum ⊢
      obtain ⟨hfound, hdone⟩ := ih hs' hsum
      exact ⟨fun c hc => (hfound c hc).imp_left (List.mem_cons_of_mem coin), hdone⟩
    rw [scan]
    by_cases hexact : coin.1 = nTargetValue
    · rw [if_pos hexact]
      refine ⟨fun c h => ?_, fun s' h => (nomatch h)⟩
      obtain rfl := Sum.inl.inj h
      exact ⟨List.mem_cons_self, hexact⟩
    rw [if_neg hexact, htarget]
    by_cases hlower : coin.1 < nTargetValue + cent
    · rw [if_pos hlower]
      have hone : [coin].filter (fun c => decide (c.1 < nTargetValue + cent)) = [coin] :=
        List.filter_cons_of_pos (decide_eq_true hlower)
      refine hrest ⟨?_, ?_, fun c hc => ?_, fun hnone c hc => ?_⟩
      · rw [hfilter, hone]
      · have hsub : (s.vValue ++ [coin]).Subperm (seen ++ coin :: coins) := by
          rw [hassoc]
          exact ((hs.sublist.append (List.Sublist.refl [coin])).trans
            (List.sublist_append_left _ _)).subperm
        rw [hs.nTotalLower]
        refine Eq.trans (congrArg toInt64 ?_) (toInt64_worth (hsum.of_subperm hsub))
        rw [worth_append]
        exact congrArg (worth s.vValue + ·) (add_zero coin.1).symm
      · exact (hs.larger c hc).imp_left (List.mem_append_left _)
      · rcases List.mem_append.1 hc with hc | hc
        · exact hs.lower hnone c hc
        · rwa [List.mem_singleton.1 hc]
    · rw [if_neg hlower]
      have hone : [coin].filter (fun c => decide (c.1 < nTargetValue + cent)) = [] :=
        List.filter_cons_of_neg (by rwa [decide_eq_true_iff])
      split
      · refine hrest ⟨?_, hs.nTotalLower, fun c hc => ?_, fun hnone => (nomatch hnone)⟩
        · rw [hfilter, hone, List.append_nil]
        · obtain rfl := Option.some.inj hc
          exact ⟨List.mem_append_right _ List.mem_cons_self, not_lt.1 hlower⟩
      · next hhigh =>
        refine hrest ⟨?_, hs.nTotalLower, fun c hc => ?_, fun hnone => ?_⟩
        · rw [hfilter, hone, List.append_nil]
        · exact (hs.larger c hc).imp_left (List.mem_append_left _)
        · rw [hnone, Option.elim_none] at hhigh
          exact absurd (hsum.lt coin hmem) hhigh

theorem lt_add_cent (nTargetValue : CAmount) : nTargetValue < nTargetValue + cent :=
  lt_add_of_pos_right _ (by decide)

theorem worth_singleton (coin : Coin) : worth [coin] = coin.1 := add_zero coin.1

theorem worth_pick {best : Search} {nTarget : CAmount}
    (hbest : Best (coins.map (·.1)) nTarget best) :
    worth (pick coins best.vfBest) = best.nBest := by
  rw [hbest.sum, worth, Picks.map_pick]

/-- What is returned has been selected from the coins, and reaches the target. -/
def Chosen (nTargetValue : CAmount) (coins chosen : List Coin) : Prop :=
  chosen.Subperm coins ∧ nTargetValue ≤ worth chosen

theorem best_bestSubset (htarget : toInt64 (nTargetValue + cent) = nTargetValue + cent)
    (hsum : Summable coins) (henough : nTargetValue ≤ worth coins)
    (insecureRand insecureRand' : ℕ → ℕ → Bool) : Best (coins.map (·.1)) nTargetValue
      (bestSubset nTargetValue coins (worth coins) insecureRand insecureRand') := by
  have hpos : ∀ v ∈ coins.map (·.1), 0 ≤ v := fun v hv => by
    obtain ⟨coin, hcoin, rfl⟩ := List.mem_map.1 hv
    exact hsum.nonneg coin hcoin
  unfold bestSubset
  dsimp only
  rw [htarget]
  split
  · next hmore =>
    have h := best_approximateBestSubset hpos hsum.sum hmore.2 insecureRand'
    exact ⟨h.sum, (lt_add_cent nTargetValue).le.trans h.reached⟩
  · exact best_approximateBestSubset hpos hsum.sum henough insecureRand

theorem chosen_solveSubset (htarget : toInt64 (nTargetValue + cent) = nTargetValue + cent)
    (hsum : Summable coins) (hs : Scanned nTargetValue coins s)
    (henough : nTargetValue ≤ s.nTotalLower) (insecureRand insecureRand' : ℕ → ℕ → Bool) :
    Chosen nTargetValue coins (solveSubset nTargetValue s insecureRand insecureRand') := by
  obtain ⟨sorted, hsorted⟩ : ∃ sorted, sorted = s.vValue.insertionSort fun a b => b.1 ≤ a.1 :=
    ⟨_, rfl⟩
  have hperm : sorted.Perm s.vValue := hsorted ▸ List.perm_insertionSort _ _
  have hsub : sorted.Subperm coins := hperm.subperm.trans hs.sublist.subperm
  have htotal : s.nTotalLower = worth sorted := hs.nTotalLower.trans (worth_perm hperm).symm
  unfold solveSubset
  dsimp only
  rw [← hsorted, htotal]
  obtain ⟨best, hbest⟩ : ∃ best, best =
      bestSubset nTargetValue sorted (worth sorted) insecureRand insecureRand' := ⟨_, rfl⟩
  have hfound : Best (sorted.map (·.1)) nTargetValue best := hbest ▸
    best_bestSubset htarget (hsum.of_subperm hsub) (htotal ▸ henough) insecureRand insecureRand'
  have hpick : Chosen nTargetValue coins (pick sorted best.vfBest) :=
    ⟨(Picks.pick_sublist _ _).subperm.trans hsub, (worth_pick hfound).symm ▸ hfound.reached⟩
  rw [← hbest]
  split
  · exact hpick
  · next coin hcoin =>
    obtain ⟨hmem, hhigh⟩ := hs.larger coin hcoin
    split
    · refine ⟨List.singleton_subperm_iff.2 hmem, ?_⟩
      rw [worth_singleton]
      exact (lt_add_cent nTargetValue).le.trans hhigh
    · exact hpick

/-- What a pass leads to, by what it looks at. -/
def Outcome.Right (nTargetValue : CAmount) (coins : List Coin) : Outcome → Prop
  | .found chosen => Chosen nTargetValue coins chosen
  | .more => worth coins < nTargetValue
  | .solve s => Scanned nTargetValue coins s ∧ nTargetValue ≤ s.nTotalLower

theorem tryPass_right (htarget : toInt64 (nTargetValue + cent) = nTargetValue + cent)
    (obfuScationDenominations : List CAmount) (nConfMine nConfTheirs : ℤ) (tryDenom : Bool)
    (vCoins : List COutput) (hsum : Summable
      (considered obfuScationDenominations nConfMine nConfTheirs tryDenom vCoins)) :
    Outcome.Right nTargetValue
      (considered obfuScationDenominations nConfMine nConfTheirs tryDenom vCoins)
      (tryPass obfuScationDenominations nTargetValue nConfMine nConfTheirs tryDenom vCoins) := by
  obtain ⟨hfound, hdone⟩ := scan_spec htarget (scanned_start nTargetValue)
    (show Summable ([] ++ considered obfuScationDenominations nConfMine nConfTheirs tryDenom vCoins)
      from hsum)
  rw [List.nil_append] at hdone
  unfold tryPass
  split
  · next coin hscan =>
    obtain ⟨hmem, hexact⟩ := hfound coin hscan
    exact ⟨List.singleton_subperm_iff.2 hmem, by rw [worth_singleton, hexact]⟩
  · next s hscan =>
    have hs := hdone s hscan
    split
    · next hequal => exact ⟨hs.sublist.subperm, (hs.nTotalLower.symm.trans hequal).ge⟩
    · split
      · next hless =>
        split
        · next hnone =>
          have hall : s.vValue =
              considered obfuScationDenominations nConfMine nConfTheirs tryDenom vCoins := by
            rw [hs.vValue]
            exact List.filter_eq_self.2 fun coin hcoin => decide_eq_true (hs.lower hnone coin hcoin)
          change worth _ < nTargetValue
          rwa [← hall, ← hs.nTotalLower]
        · next coin hcoin =>
          obtain ⟨hmem, hhigh⟩ := hs.larger coin hcoin
          refine ⟨List.singleton_subperm_iff.2 hmem, ?_⟩
          rw [worth_singleton]
          exact (lt_add_cent nTargetValue).le.trans hhigh
      · next hmore => exact ⟨hs, not_lt.1 hmore⟩

/-- The coins are put into the set, and their values are added up. -/
theorem selectAll_eq (h : Summable coins) :
    selectAll coins = ⟨true, (coins.map (·.2)).toFinset, worth coins⟩ := by
  induction coins using List.reverseRecOn with
  | nil => rfl
  | append_singleton coins coin ih =>
    have hfront : Summable coins := h.of_subperm (List.sublist_append_left _ _).subperm
    have hnext := toInt64_worth h
    rw [worth_append, worth_singleton] at hnext
    have hlast := ih hfront
    unfold selectAll at hlast ⊢
    rw [List.foldl_append, hlast, List.foldl_cons, List.foldl_nil]
    dsimp only
    rw [hnext, worth_append, worth_singleton, List.map_append, List.toFinset_append,
      Finset.union_comm]
    rfl

end Passing

/-! The selection. -/

section Selecting

variable {obfuScationDenominations : List CAmount} {nTargetValue : CAmount}
  {outputs part : List COutput} {chosen : List Coin}

def total (outputs : List COutput) : CAmount := (outputs.map COutput.nValue).sum

theorem worth_coins (outputs : List COutput) :
    worth (outputs.map COutput.coin) = total outputs := by
  rw [worth, List.map_map]
  rfl

/-- There is a selection just where the outputs suffice. It is made from them, with their values,
and leaves the denominated ones alone where the others suffice. -/
structure Right (obfuScationDenominations : List CAmount) (nTargetValue : CAmount)
    (outputs : List COutput) (r : Selection) : Prop where
  missing : r.fSelected = false ↔ total outputs < nTargetValue
  subset : r.fSelected = true → ∀ outpoint ∈ r.setCoinsRet, ∃ output ∈ outputs,
    output.outpoint = outpoint
  value : r.fSelected = true → r.nValueRet =
    total (outputs.filter fun output => decide (output.outpoint ∈ r.setCoinsRet))
  reached : r.fSelected = true → nTargetValue ≤ r.nValueRet
  undenominated : r.fSelected = true →
    nTargetValue ≤ total (outputs.filter fun output =>
      !isDenominatedAmount obfuScationDenominations output.nValue) →
    ∀ output ∈ outputs, output.outpoint ∈ r.setCoinsRet →
      isDenominatedAmount obfuScationDenominations output.nValue = false

theorem right_selectAll (hdistinct : (outputs.map COutput.outpoint).Nodup)
    (hsum : Summable (outputs.map COutput.coin)) (hpart : part.Sublist outputs)
    (hchosen : Chosen nTargetValue (part.map COutput.coin) chosen)
    (hundenominated : nTargetValue ≤ total (outputs.filter fun output =>
        !isDenominatedAmount obfuScationDenominations output.nValue) →
      ∀ output ∈ part, isDenominatedAmount obfuScationDenominations output.nValue = false) :
    Right obfuScationDenominations nTargetValue outputs (selectAll chosen) := by
  obtain ⟨hsub, hreached⟩ := hchosen
  have hcoins : chosen.Subperm (outputs.map COutput.coin) :=
    hsub.trans (hpart.map COutput.coin).subperm
  have hkeys : ((outputs.map COutput.coin).map (·.2)).Nodup := by
    rw [List.map_map]
    exact hdistinct
  have htaken : (outputs.filter fun output =>
      decide (output.outpoint ∈ (chosen.map (·.2)).toFinset)).map COutput.coin =
        (outputs.map COutput.coin).filter fun coin => decide (coin.2 ∈ chosen.map (·.2)) := by
    rw [List.filter_map]
    refine congrArg (List.map COutput.coin) (List.filter_congr fun output _ => ?_)
    rw [Function.comp_apply, decide_eq_decide, List.mem_toFinset]
    rfl
  rw [selectAll_eq (hsum.of_subperm hcoins)]
  refine ⟨iff_of_false nofun ?_, fun _ outpoint hmem => ?_, fun _ => ?_,
    fun _ => hreached, fun _ henough output houtput hmem => ?_⟩
  · rw [← worth_coins]
    exact not_lt.2 (hreached.trans (worth_le_of_subperm hsum hcoins))
  · obtain ⟨coin, hcoin, rfl⟩ := List.mem_map.1 (List.mem_toFinset.1 hmem)
    obtain ⟨output, houtput, rfl⟩ := List.mem_map.1 (hcoins.subset hcoin)
    exact ⟨output, houtput, rfl⟩
  · rw [← worth_coins, htaken]
    exact (worth_perm (Picks.filter_mem_perm hcoins hkeys)).symm
  · obtain ⟨coin, hcoin, hkey⟩ := List.mem_map.1 (List.mem_toFinset.1 hmem)
    obtain ⟨other, hother, rfl⟩ := List.mem_map.1 (hsub.subset hcoin)
    obtain rfl := List.inj_on_of_nodup_map hdistinct (hpart.subset hother) houtput hkey
    exact hundenominated henough other hother

variable {nConfMine nConfTheirs : ℤ} {vCoins vCoins' : List COutput}

theorem considered_perm (h : vCoins'.Perm vCoins) (tryDenom : Bool) :
    (considered obfuScationDenominations nConfMine nConfTheirs tryDenom vCoins').Perm
      (((vCoins.filter (eligible nConfMine nConfTheirs)).filter fun output =>
        tryDenom || !isDenominatedAmount obfuScationDenominations output.nValue).map
          COutput.coin) := by
  rw [considered, List.filter_filter]
  refine List.Perm.map _ ((h.filter _).trans (List.Perm.of_eq ?_))
  exact List.filter_congr fun output _ => Bool.and_comm _ _

theorem worth_considered_true (obfuScationDenominations : List CAmount)
    (h : vCoins'.Perm vCoins) :
    worth (considered obfuScationDenominations nConfMine nConfTheirs true vCoins') =
      total (vCoins.filter (eligible nConfMine nConfTheirs)) := by
  have hall : (vCoins.filter (eligible nConfMine nConfTheirs)).filter (fun output =>
      true || !isDenominatedAmount obfuScationDenominations output.nValue) =
      vCoins.filter (eligible nConfMine nConfTheirs) := List.filter_eq_self.2 fun _ _ => rfl
  rw [worth_perm (considered_perm h true), hall, worth_coins]

/-- Outputs that are told apart, with amounts that can be added up. -/
structure Usable (nTargetValue : CAmount) (outputs : List COutput) : Prop where
  distinct : (outputs.map COutput.outpoint).Nodup
  sum : Summable (outputs.map COutput.coin)
  target : toInt64 (nTargetValue + cent) = nTargetValue + cent

theorem Usable.summable_considered
    (h : Usable nTargetValue (vCoins.filter (eligible nConfMine nConfTheirs)))
    (hperm : vCoins'.Perm vCoins) (tryDenom : Bool) : Summable
      (considered obfuScationDenominations nConfMine nConfTheirs tryDenom vCoins') :=
  h.sum.of_subperm
    ((considered_perm hperm tryDenom).subperm.trans (List.filter_sublist.map _).subperm)

theorem Usable.tryPass_right
    (h : Usable nTargetValue (vCoins.filter (eligible nConfMine nConfTheirs)))
    (obfuScationDenominations : List CAmount) (hperm : vCoins'.Perm vCoins) (tryDenom : Bool) :
    Outcome.Right nTargetValue
      (considered obfuScationDenominations nConfMine nConfTheirs tryDenom vCoins')
      (tryPass obfuScationDenominations nTargetValue nConfMine nConfTheirs tryDenom vCoins') :=
  CoinSelection.tryPass_right h.target _ _ _ _ _ (h.summable_considered hperm tryDenom)

/-- The second pass is made where the outputs that are not denominated do not suffice. -/
theorem Usable.right_selectAll
    (h : Usable nTargetValue (vCoins.filter (eligible nConfMine nConfTheirs)))
    (hperm : vCoins'.Perm vCoins) {tryDenom : Bool} (hchosen : Chosen nTargetValue
      (considered obfuScationDenominations nConfMine nConfTheirs tryDenom vCoins') chosen)
    (hshort : tryDenom = true →
      total ((vCoins.filter (eligible nConfMine nConfTheirs)).filter fun output =>
        !isDenominatedAmount obfuScationDenominations output.nValue) < nTargetValue) :
    Right obfuScationDenominations nTargetValue (vCoins.filter (eligible nConfMine nConfTheirs))
      (selectAll chosen) := by
  refine CoinSelection.right_selectAll h.distinct h.sum List.filter_sublist
    ⟨hchosen.1.trans (considered_perm hperm tryDenom).subperm, hchosen.2⟩
    fun henough output houtput => ?_
  cases tryDenom with
  | true => exact absurd henough (not_le.2 (hshort rfl))
  | false => simpa using (List.mem_filter.1 houtput).2

theorem Usable.right_solveSubset
    (h : Usable nTargetValue (vCoins.filter (eligible nConfMine nConfTheirs)))
    (hperm : vCoins'.Perm vCoins) {tryDenom : Bool} {s : Scan} (hs : Outcome.Right nTargetValue
      (considered obfuScationDenominations nConfMine nConfTheirs tryDenom vCoins') (.solve s))
    (hshort : tryDenom = true →
      total ((vCoins.filter (eligible nConfMine nConfTheirs)).filter fun output =>
        !isDenominatedAmount obfuScationDenominations output.nValue) < nTargetValue)
    (insecureRand insecureRand' : ℕ → ℕ → Bool) :
    Right obfuScationDenominations nTargetValue (vCoins.filter (eligible nConfMine nConfTheirs))
      (selectAll (solveSubset nTargetValue s insecureRand insecureRand')) :=
  h.right_selectAll hperm (chosen_solveSubset h.target (h.summable_considered hperm tryDenom)
    hs.1 hs.2 insecureRand insecureRand') hshort

theorem Usable.right_selectCoinsMinConf
    (h : Usable nTargetValue (vCoins.filter (eligible nConfMine nConfTheirs)))
    (rand : Randomness) : Right obfuScationDenominations nTargetValue
      (vCoins.filter (eligible nConfMine nConfTheirs))
      (selectCoinsMinConf obfuScationDenominations nTargetValue nConfMine nConfTheirs vCoins
        rand) := by
  obtain ⟨sorted, hsorted⟩ : ∃ sorted, sorted = (rand.shuffle vCoins).insertionSort fun a b =>
      lessThenDenom obfuScationDenominations b a = false := ⟨_, rfl⟩
  have hperm : sorted.Perm vCoins :=
    hsorted ▸ (List.perm_insertionSort _ _).trans (rand.perm vCoins)
  have hfirst := h.tryPass_right obfuScationDenominations hperm false
  have hsecond := h.tryPass_right obfuScationDenominations hperm true
  unfold selectCoinsMinConf
  dsimp only
  rw [← hsorted]
  split
  · next hout =>
    rw [hout] at hfirst
    exact h.right_selectAll hperm hfirst nofun
  · next hout =>
    rw [hout] at hfirst
    exact h.right_solveSubset hperm hfirst nofun _ _
  · next hout =>
    rw [hout] at hfirst
    have hshort : total ((vCoins.filter (eligible nConfMine nConfTheirs)).filter fun output =>
        !isDenominatedAmount obfuScationDenominations output.nValue) < nTargetValue := by
      rw [← worth_coins]
      exact lt_of_eq_of_lt (worth_perm (considered_perm hperm false)).symm hfirst
    split
    · next hout =>
      rw [hout] at hsecond
      exact h.right_selectAll hperm hsecond fun _ => hshort
    · next hout =>
      rw [hout] at hsecond
      exact h.right_solveSubset hperm hsecond (fun _ => hshort) _ _
    · next hout =>
      rw [hout] at hsecond
      have hall : total (vCoins.filter (eligible nConfMine nConfTheirs)) < nTargetValue := by
        rw [← worth_considered_true obfuScationDenominations hperm]
        exact hsecond
      exact ⟨iff_of_true rfl hall, nofun, nofun, nofun, nofun⟩

/-- Whatever the random choices are, if no sum and no value is the largest amount or above. -/
theorem selection_right (obfuScationDenominations : List CAmount) (nTargetValue : CAmount)
    (nConfMine nConfTheirs : ℤ) (vCoins : List COutput) (rand : Randomness)
    (hdistinct : (vCoins.map COutput.outpoint).Nodup) (hpos : ∀ output ∈ vCoins, 0 < output.nValue)
    (hlow : -2 ^ 63 ≤ nTargetValue) (hhigh : nTargetValue + cent ≤ maxAmount)
    (hlt : ∀ output ∈ vCoins.filter (eligible nConfMine nConfTheirs), output.nValue < maxAmount)
    (htotal : total (vCoins.filter (eligible nConfMine nConfTheirs)) ≤ maxAmount) :
    Right obfuScationDenominations nTargetValue (vCoins.filter (eligible nConfMine nConfTheirs))
      (selectCoinsMinConf obfuScationDenominations nTargetValue nConfMine nConfTheirs vCoins
        rand) := by
  refine Usable.right_selectCoinsMinConf ⟨?_, ⟨fun coin hcoin => ?_, fun coin hcoin => ?_, ?_⟩, ?_⟩
    rand
  · exact hdistinct.sublist (List.filter_sublist.map _)
  · obtain ⟨output, houtput, rfl⟩ := List.mem_map.1 hcoin
    exact (hpos output (List.mem_of_mem_filter houtput)).le
  · obtain ⟨output, houtput, rfl⟩ := List.mem_map.1 hcoin
    exact hlt output houtput
  · rwa [worth_coins]
  · exact toInt64_eq_self (hlow.trans (lt_add_cent nTargetValue).le)
      (lt_of_le_of_lt hhigh (by decide))

/-- The outputs in their order, and a coin that always falls on the same side. -/
def sampleRandomness : Randomness :=
  ⟨id, fun _ => List.Perm.refl _, fun _ _ => true, fun _ _ => true⟩

def sampleOutput (n : ℕ) (nValue : CAmount) : COutput := ⟨⟨n, 0⟩, nValue, 10, true, false⟩

/-- Two outputs of 0.6 and 0.7, and one of a denomination. -/
theorem selection_right_sample :
    Right [100001000] 100000000
      ([sampleOutput 1 60000000, sampleOutput 2 70000000, sampleOutput 3 100001000].filter
        (eligible 1 6))
      (selectCoinsMinConf [100001000] 100000000 1 6
        [sampleOutput 1 60000000, sampleOutput 2 70000000, sampleOutput 3 100001000]
        sampleRandomness) :=
  selection_right _ _ _ _ _ _ (by decide) (by decide) (by decide) (by decide) (by decide)
    (by decide)

/-- An output of the largest amount is taken for no output; a sum above the largest amount passes
for a small one; and next to the largest target every output passes for a larger one. -/
theorem large_amounts_mislead :
    ¬Right [] 1 ([sampleOutput 1 maxAmount].filter (eligible 1 6))
        (selectCoinsMinConf [] 1 1 6 [sampleOutput 1 maxAmount] sampleRandomness) ∧
      ¬Right [] (2 ^ 62 + 10000000)
        ([sampleOutput 1 (2 ^ 62), sampleOutput 2 (2 ^ 62 + 5)].filter (eligible 1 6))
        (selectCoinsMinConf [] (2 ^ 62 + 10000000) 1 6
          [sampleOutput 1 (2 ^ 62), sampleOutput 2 (2 ^ 62 + 5)] sampleRandomness) ∧
      ¬Right [] maxAmount ([sampleOutput 1 5].filter (eligible 1 6))
        (selectCoinsMinConf [] maxAmount 1 6 [sampleOutput 1 5] sampleRandomness) :=
  ⟨fun h => absurd (h.missing.1 (by decide)) (by decide),
    fun h => absurd (h.missing.1 (by decide)) (by decide),
    fun h => absurd (h.missing.2 (by decide)) (by decide)⟩

end Selecting

end Scrypta.CoinSelection
