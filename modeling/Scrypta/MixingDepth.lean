import Scrypta.CoinSelection
import Scrypta.MixingPool

/-! How many rounds an output of the wallet was mixed. The depths that were computed are remembered
in copies of the transactions for all later queries. -/

namespace Scrypta.MixingDepth

open CoinSelection (isDenominatedAmount)
open Mixing (obfuScationDenominations obfuscationCollateral)

/-- The transactions of the wallet and which outputs belong to it. No output that comes from a
serialized transaction has a depth of its own, and no transaction spends what comes after it. -/
structure Wallet where
  getWalletTx : Uint256 → Option CTransaction
  mine : CTxOut → Bool
  fresh : ∀ {hash wtx}, getWalletTx hash = some wtx → ∀ out ∈ wtx.vout, out.nRounds = -10
  acyclic : WellFounded fun prev hash =>
    ∃ wtx, getWalletTx hash = some wtx ∧ ∃ i ∈ wtx.vin, i.prevout.hash = prev

def Wallet.isMine (w : Wallet) (txin : CTxIn) : Bool :=
  match w.getWalletTx txin.prevout.hash with
  | none => false
  | some prev =>
    match prev.vout[txin.prevout.n.toNat]? with
    | none => false
    | some out => w.mine out

def isDenominated (nInputAmount : CAmount) : Bool :=
  isDenominatedAmount obfuScationDenominations nInputAmount

def isCollateralAmount (nInputAmount : CAmount) : Bool :=
  nInputAmount ≠ 0 && nInputAmount % obfuscationCollateral = 0 &&
    nInputAmount < obfuscationCollateral * 5 && obfuscationCollateral < nInputAmount

/-- The static map of the copies; of a copy only the outputs are used. -/
abbrev Memo := Dict Uint256 (List CTxOut)

def remember (memo : Memo) (o : COutPoint) (nRounds : ℤ) : Memo :=
  memo.modify o.hash fun vout => vout.modify o.n.toNat fun out => { out with nRounds := nRounds }

/-- What the copy says of an output; `none` where a copy has no such output. -/
def recalled (memo : Memo) (o : COutPoint) : Option (Option ℤ) :=
  match memo.find o.hash with
  | none => some none
  | some vout =>
    vout[o.n.toNat]?.map fun out => if out.nRounds ≠ -10 then some out.nRounds else none

/-- The shortest depth so far, with the flag that there is one. -/
def shorter (acc : ℤ × Bool) (n : ℤ) : ℤ × Bool :=
  if 0 ≤ n ∧ (n < acc.1 ∨ acc.1 = -10) then (n, true) else acc

/-- The loop over the inputs. -/
def shortest (rounds : COutPoint → Memo → Option (ℤ × Memo)) (isMine : CTxIn → Bool) :
    List CTxIn → ℤ × Bool → Memo → Option ((ℤ × Bool) × Memo)
  | [], acc, memo => some (acc, memo)
  | in2 :: vin, acc, memo =>
    if isMine in2 then
      match rounds in2.prevout memo with
      | none => none
      | some (n, memo) => shortest rounds isMine vin (shorter acc n) memo
    else shortest rounds isMine vin acc memo

/-- `GetRealInputObfuscationRounds` with `left` more levels before its cut-off, that is with
`rounds = 16 - left`. -/
def getRealInputObfuscationRounds (w : Wallet) : ℕ → COutPoint → Memo → Option (ℤ × Memo)
  | 0, _, memo => some (15, memo)
  | left + 1, o, memo =>
    let rounds : ℤ := 15 - left
    match w.getWalletTx o.hash with
    | none => some (rounds - 1, memo)
    | some wtx =>
      match recalled memo o with
      | none => none
      | some (some nRounds) => some (nRounds, memo)
      | some none =>
        let memo := memo.insert o.hash wtx.vout
        match wtx.vout[o.n.toNat]? with
        | none => some (-4, memo)
        | some out =>
          if isCollateralAmount out.nValue then some (-3, remember memo o (-3))
          else if !isDenominated out.nValue then some (-2, remember memo o (-2))
          else if !wtx.vout.all fun out => isDenominated out.nValue then some (0, remember memo o 0)
          else
            match shortest (getRealInputObfuscationRounds w left) w.isMine wtx.vin (-10, false)
              memo with
            | none => none
            | some ((nShortest, fDenomFound), memo) =>
              let nRounds :=
                if fDenomFound then if 15 ≤ nShortest then 16 else nShortest + 1 else 0
              some (nRounds, remember memo o nRounds)

def getInputObfuscationRounds (w : Wallet) (nObfuscationRounds : ℤ) (o : COutPoint)
    (memo : Memo) : Option (ℤ × Memo) :=
  (getRealInputObfuscationRounds w 16 o memo).map fun r =>
    (if nObfuscationRounds < r.1 then nObfuscationRounds else r.1, r.2)

section Plain

variable (w : Wallet)

/-- The depth of an output from the depths of the own inputs of its transaction. -/
def depthFrom (depth : COutPoint → ℤ) (o : COutPoint) : ℤ :=
  match w.getWalletTx o.hash with
  | none => -1
  | some wtx =>
    match wtx.vout[o.n.toNat]? with
    | none => -4
    | some out =>
      if isCollateralAmount out.nValue then -3
      else if !isDenominated out.nValue then -2
      else if !wtx.vout.all fun out => isDenominated out.nValue then 0
      else
        match (((wtx.vin.filter w.isMine).map fun i => depth i.prevout).filter (0 ≤ ·)).min? with
        | none => 0
        | some n => min 16 (n + 1)

/-- The plain recursion, without the copies and without a cut-off. -/
noncomputable def depth (o : COutPoint) : ℤ :=
  w.acyclic.fix (C := fun _ => BitVec 32 → ℤ)
    (fun hash prior n =>
      depthFrom w (fun prev =>
        open Classical in
        if h : ∃ wtx, w.getWalletTx hash = some wtx ∧ ∃ i ∈ wtx.vin, i.prevout.hash = prev.hash then
          prior prev.hash h prev.n
        else 0) ⟨hash, n⟩) o.hash o.n

theorem depthFrom_congr {f g : COutPoint → ℤ} {o : COutPoint}
    (h : ∀ wtx, w.getWalletTx o.hash = some wtx → ∀ i ∈ wtx.vin, f i.prevout = g i.prevout) :
    depthFrom w f o = depthFrom w g o := by
  unfold depthFrom
  cases hwtx : w.getWalletTx o.hash with
  | none => rfl
  | some wtx =>
    have hmap : (wtx.vin.filter w.isMine).map (fun i => f i.prevout) =
        (wtx.vin.filter w.isMine).map fun i => g i.prevout :=
      List.map_congr_left fun i hi => h wtx hwtx i (List.mem_filter.mp hi).1
    simp only [hmap]

theorem depth_eq (o : COutPoint) : depth w o = depthFrom w (depth w) o := by
  rw [depth, WellFounded.fix_eq]
  refine depthFrom_congr w fun wtx hwtx i hi => ?_
  rw [dif_pos ⟨wtx, hwtx, i, hi, rfl⟩]
  rfl

end Plain

section CutOff

/-- Some input of the loop is followed down to the cut-off. -/
def cutsAny (cuts : COutPoint → Memo → Bool) (rounds : COutPoint → Memo → Option (ℤ × Memo))
    (isMine : CTxIn → Bool) : List CTxIn → Memo → Bool
  | [], _ => false
  | in2 :: vin, memo =>
    if isMine in2 then
      cuts in2.prevout memo ||
        match rounds in2.prevout memo with
        | none => false
        | some (_, memo) => cutsAny cuts rounds isMine vin memo
    else cutsAny cuts rounds isMine vin memo

/-- Whether the depth of an output comes from the inputs of its transaction. -/
def mixed (wtx : CTransaction) (o : COutPoint) : Bool :=
  match wtx.vout[o.n.toNat]? with
  | none => false
  | some out => !isCollateralAmount out.nValue && isDenominated out.nValue &&
      wtx.vout.all fun out => isDenominated out.nValue

/-- The recursion takes its cut-off: it arrives there through outputs that are not remembered. -/
def cutsOff (w : Wallet) : ℕ → COutPoint → Memo → Bool
  | 0, _, _ => true
  | left + 1, o, memo =>
    match w.getWalletTx o.hash with
    | none => false
    | some wtx => recalled memo o == some none && mixed wtx o &&
        cutsAny (cutsOff w left) (getRealInputObfuscationRounds w left) w.isMine wtx.vin
          (memo.insert o.hash wtx.vout)

/-- There is a copy of the transaction, and it has no such output. -/
def PastEnd (memo : Memo) (o : COutPoint) : Prop := recalled memo o = none

instance (memo : Memo) (o : COutPoint) : Decidable (PastEnd memo o) :=
  inferInstanceAs (Decidable (recalled memo o = none))

end CutOff

section Sound

/-- What is remembered is the depth. -/
def Sound (w : Wallet) (memo : Memo) : Prop :=
  ∀ o vout, memo.find o.hash = some vout → ∃ wtx, w.getWalletTx o.hash = some wtx ∧
    vout.length = wtx.vout.length ∧
    ∀ out, vout[o.n.toNat]? = some out → out.nRounds = -10 ∨ out.nRounds = depth w o

variable {w : Wallet} {memo : Memo} {o : COutPoint}

theorem sound_empty (w : Wallet) : Sound w Dict.empty := by
  intro o vout h
  rw [Dict.find_empty] at h
  cases h

theorem Sound.insert (h : Sound w memo) {wtx : CTransaction}
    (hwtx : w.getWalletTx o.hash = some wtx) : Sound w (memo.insert o.hash wtx.vout) := by
  intro o' vout hfind
  cases hold : memo.find o.hash with
  | some vout' =>
    rw [Dict.insert_of_some _ hold] at hfind
    exact h o' vout hfind
  | none =>
    rw [Dict.find_insert_of_none _ hold] at hfind
    split_ifs at hfind with hhash
    · obtain rfl := Option.some.inj hfind
      refine ⟨wtx, hhash ▸ hwtx, rfl, fun out hout => .inl ?_⟩
      exact w.fresh hwtx out (List.mem_of_getElem? hout)
    · exact h o' vout hfind

theorem Sound.remember (h : Sound w memo) : Sound w (remember memo o (depth w o)) := by
  intro o' vout hfind
  rw [MixingDepth.remember, Dict.find_modify] at hfind
  split_ifs at hfind with hhash
  · obtain ⟨vout', hold, rfl⟩ := Option.map_eq_some_iff.mp hfind
    obtain ⟨wtx, hwtx, hlen, hout⟩ := h o' vout' (by rw [hhash]; exact hold)
    refine ⟨wtx, hwtx, by rw [List.length_modify, hlen], fun out hget => ?_⟩
    rw [List.getElem?_modify] at hget
    split_ifs at hget with hn
    · obtain ⟨out', -, rfl⟩ := Option.map_eq_some_iff.mp hget
      have heq : o' = o := by
        cases o
        cases o'
        simp_all [BitVec.toNat_inj]
      exact .inr (by rw [heq])
    · exact hout out (by simpa using hget)
  · exact h o' vout hfind

theorem recall_sound (h : Sound w memo) {nRounds : ℤ}
    (hrecall : recalled memo o = some (some nRounds)) : nRounds = depth w o := by
  unfold recalled at hrecall
  split at hrecall
  · cases Option.some.inj hrecall
  · rename_i vout hfind
    obtain ⟨wtx, -, -, hout⟩ := h o vout hfind
    obtain ⟨out, hget, hval⟩ := Option.map_eq_some_iff.mp hrecall
    split_ifs at hval with hne
    rw [← Option.some.inj hval]
    exact (hout out hget).resolve_left hne

/-- The output that an own input spends is in the wallet. -/
theorem exists_of_isMine {i : CTxIn} (h : w.isMine i = true) :
    ∃ prev, w.getWalletTx i.prevout.hash = some prev ∧ i.prevout.n.toNat < prev.vout.length := by
  unfold Wallet.isMine at h
  split at h
  · cases h
  · rename_i prev hprev
    split at h
    · cases h
    · rename_i out hout
      exact ⟨prev, hprev, (List.getElem?_eq_some_iff.mp hout).1⟩

theorem not_pastEnd_of_isMine (h : Sound w memo) {i : CTxIn} (hmine : w.isMine i = true) :
    ¬PastEnd memo i.prevout := by
  obtain ⟨prev, hprev, hlt⟩ := exists_of_isMine hmine
  unfold PastEnd recalled
  split
  · exact Option.some_ne_none _
  · rename_i vout hfind
    obtain ⟨wtx, hwtx, hlen, -⟩ := h i.prevout vout hfind
    obtain rfl := Option.some.inj (hprev.symm.trans hwtx)
    rw [List.getElem?_eq_getElem (hlen ▸ hlt)]
    exact Option.some_ne_none _

end Sound

section Recursion

variable {w : Wallet}

theorem foldl_shorter {a : ℤ} (ha : 0 ≤ a) (ns : List ℤ) :
    ns.foldl shorter (a, true) = ((ns.filter (0 ≤ ·)).foldl min a, true) := by
  induction ns generalizing a with
  | nil => rfl
  | cons n ns ih =>
    rw [List.foldl_cons]
    by_cases hn : 0 ≤ n
    · have hstep : shorter (a, true) n = (min a n, true) := by
        unfold shorter
        split_ifs with h <;> simp only [Prod.mk.injEq, and_true] <;> omega
      rw [hstep, ih (le_min ha hn), List.filter_cons_of_pos (by simpa using hn), List.foldl_cons]
    · have hstep : shorter (a, true) n = (a, true) := if_neg fun h => hn h.1
      rw [hstep, ih ha, List.filter_cons_of_neg (by simpa using hn)]

theorem foldl_shorter_start (ns : List ℤ) :
    ns.foldl shorter (-10, false) = match (ns.filter (0 ≤ ·)).min? with
      | none => (-10, false)
      | some n => (n, true) := by
  induction ns with
  | nil => rfl
  | cons n ns ih =>
    rw [List.foldl_cons]
    by_cases hn : 0 ≤ n
    · have hstep : shorter (-10, false) n = (n, true) := if_pos ⟨hn, .inr rfl⟩
      rw [hstep, foldl_shorter hn, List.filter_cons_of_pos (by simpa using hn), List.min?_cons']
    · have hstep : shorter (-10, false) n = (-10, false) := if_neg fun h => hn h.1
      rw [hstep, ih, List.filter_cons_of_neg (by simpa using hn)]

/-- What the recursion does for one output where it does not take its cut-off. -/
def Computes (w : Wallet) (left : ℕ) : Prop :=
  ∀ o memo, Sound w memo → ¬PastEnd memo o → cutsOff w left o memo = false →
    (w.getWalletTx o.hash = none → left = 16) →
    ∃ memo', getRealInputObfuscationRounds w left o memo = some (depth w o, memo') ∧ Sound w memo'

theorem shortest_spec {left : ℕ} (hrec : Computes w left) (vin : List CTxIn) (acc : ℤ × Bool)
    {memo : Memo} (hmemo : Sound w memo)
    (hcuts : cutsAny (cutsOff w left) (getRealInputObfuscationRounds w left) w.isMine vin memo =
      false) :
    ∃ memo', shortest (getRealInputObfuscationRounds w left) w.isMine vin acc memo =
        some (((vin.filter w.isMine).map fun i => depth w i.prevout).foldl shorter acc, memo') ∧
      Sound w memo' := by
  induction vin generalizing acc memo with
  | nil => exact ⟨memo, rfl, hmemo⟩
  | cons i vin ih =>
    rw [cutsAny] at hcuts
    rw [shortest]
    split_ifs at hcuts with hmine
    · obtain ⟨hcut, hrest⟩ := Bool.or_eq_false_iff.mp hcuts
      obtain ⟨prev, hprev, -⟩ := exists_of_isMine hmine
      obtain ⟨memo', hlook, hmemo'⟩ := hrec i.prevout memo hmemo
        (not_pastEnd_of_isMine hmemo hmine) hcut fun hnone => by rw [hprev] at hnone; cases hnone
      simp only [hlook] at hrest ⊢
      rw [if_pos hmine, List.filter_cons_of_pos hmine, List.map_cons, List.foldl_cons]
      exact ih _ hmemo' hrest
    · rw [if_neg hmine, List.filter_cons_of_neg hmine]
      exact ih acc hmemo hcuts

theorem nRounds_eq (ns : List ℤ) :
    (if (ns.foldl shorter (-10, false)).2 then
        if 15 ≤ (ns.foldl shorter (-10, false)).1 then 16 else (ns.foldl shorter (-10, false)).1 + 1
      else 0) =
      match (ns.filter (0 ≤ ·)).min? with
      | none => 0
      | some n => min 16 (n + 1) := by
  rw [foldl_shorter_start]
  cases (ns.filter (0 ≤ ·)).min? with
  | none => rfl
  | some n =>
    change (if 15 ≤ n then 16 else n + 1) = min 16 (n + 1)
    split_ifs <;> omega

theorem computes (w : Wallet) (left : ℕ) : Computes w left := by
  induction left with
  | zero => exact fun o memo _ _ hcut _ => absurd hcut (by simp [cutsOff])
  | succ left ih =>
    intro o memo hmemo hend hcut hlevel
    have hdepth := depth_eq w o
    unfold depthFrom at hdepth
    unfold getRealInputObfuscationRounds
    unfold cutsOff at hcut
    cases hwtx : w.getWalletTx o.hash with
    | none =>
      obtain rfl : left = 15 := Nat.succ.inj (hlevel hwtx)
      rw [hwtx] at hdepth
      exact ⟨memo, by rw [hdepth]; rfl, hmemo⟩
    | some wtx =>
      have hcopy := hmemo.insert hwtx
      simp only [hwtx] at hcut hdepth ⊢
      match hrecall : recalled memo o with
      | none => exact absurd hrecall hend
      | some (some nRounds) => exact ⟨memo, by rw [recall_sound hmemo hrecall], hmemo⟩
      | some none =>
        cases hout : wtx.vout[o.n.toNat]? with
        | none =>
          simp only [hout] at hdepth
          exact ⟨_, by rw [hdepth], hcopy⟩
        | some out =>
          simp only [hrecall, beq_self_eq_true, Bool.true_and] at hcut
          simp only [hout] at hdepth ⊢
          have hremember := hcopy.remember (o := o)
          -- the branches in the order of the source; the last one follows the own inputs
          split_ifs with hcollateral hdenom hall
          · rw [if_pos hcollateral] at hdepth
            exact ⟨_, by rw [hdepth], hdepth ▸ hremember⟩
          · rw [if_neg hcollateral, if_pos hdenom] at hdepth
            exact ⟨_, by rw [hdepth], hdepth ▸ hremember⟩
          · rw [if_neg hcollateral, if_neg hdenom, if_pos hall] at hdepth
            exact ⟨_, by rw [hdepth], hdepth ▸ hremember⟩
          · rw [if_neg hcollateral, if_neg hdenom, if_neg hall] at hdepth
            have hmixed : mixed wtx o = true := by
              simp only [Bool.not_eq_true, Bool.not_eq_false'] at hcollateral hdenom hall
              simp only [mixed, hout, hcollateral, hdenom, hall, Bool.not_false, Bool.and_self]
            rw [hmixed, Bool.true_and] at hcut
            obtain ⟨memo', hloop, hmemo'⟩ := shortest_spec ih wtx.vin (-10, false) hcopy hcut
            rw [← nRounds_eq] at hdepth
            simp only [hloop, ← hdepth]
            exact ⟨_, rfl, hmemo'.remember⟩

theorem getInput_spec {memo : Memo} {o : COutPoint} (nObfuscationRounds : ℤ) (hmemo : Sound w memo)
    (hend : ¬PastEnd memo o) (hcut : cutsOff w 16 o memo = false) :
    ∃ memo', getInputObfuscationRounds w nObfuscationRounds o memo =
        some (min (depth w o) nObfuscationRounds, memo') ∧ Sound w memo' := by
  obtain ⟨memo', hreal, hmemo'⟩ := computes w 16 o memo hmemo hend hcut fun _ => rfl
  refine ⟨memo', ?_, hmemo'⟩
  rw [getInputObfuscationRounds, hreal, Option.map_some]
  congr 2
  split_ifs <;> omega

end Recursion

section Queries

/-- A query after others: their answers so far and the copies; `none` after a read past the end. -/
def step (w : Wallet) (nObfuscationRounds : ℤ) (s : Option (List ℤ × Memo)) (o : COutPoint) :
    Option (List ℤ × Memo) :=
  s.bind fun s => (getInputObfuscationRounds w nObfuscationRounds o s.2).map fun r =>
    (s.1 ++ [r.1], r.2)

/-- The query neither reads past the end of a copy nor arrives at the cut-off. -/
def Uncut (w : Wallet) (s : Option (List ℤ × Memo)) (o : COutPoint) : Prop :=
  match s with
  | none => True
  | some (_, memo) => ¬PastEnd memo o ∧ cutsOff w 16 o memo = false

instance (w : Wallet) (s : Option (List ℤ × Memo)) (o : COutPoint) : Decidable (Uncut w s o) :=
  match s with
  | none => inferInstanceAs (Decidable True)
  | some (_, memo) => inferInstanceAs (Decidable (¬PastEnd memo o ∧ cutsOff w 16 o memo = false))

theorem run_spec (w : Wallet) (nObfuscationRounds : ℤ) (queries : List COutPoint) (rs : List ℤ)
    {memo : Memo} (hmemo : Sound w memo)
    (h : Runs.Meets (step w nObfuscationRounds) (Uncut w) (some (rs, memo)) queries) :
    ∃ memo', Runs.run (step w nObfuscationRounds) (some (rs, memo)) queries =
      some (rs ++ queries.map fun o => min (depth w o) nObfuscationRounds, memo') := by
  induction queries generalizing rs memo with
  | nil => exact ⟨memo, by rw [List.map_nil, List.append_nil]; rfl⟩
  | cons o queries ih =>
    obtain ⟨⟨hend, hcut⟩, hrest⟩ := h
    obtain ⟨memo', hget, hmemo'⟩ := getInput_spec nObfuscationRounds hmemo hend hcut
    have hstep : step w nObfuscationRounds (some (rs, memo)) o =
        some (rs ++ [min (depth w o) nObfuscationRounds], memo') := by
      rw [step, Option.bind_some, hget, Option.map_some]
    rw [hstep] at hrest
    obtain ⟨memo'', hrun⟩ := ih _ hmemo' hrest
    refine ⟨memo'', ?_⟩
    rw [Runs.run_cons, hstep, hrun, List.append_assoc, List.singleton_append, List.map_cons]

/-- In a run in which no query reads past the end of a copy or arrives at the cut-off, every query
is answered with the depth of the plain recursion, whatever was asked before. -/
theorem depths_of_run (w : Wallet) (nObfuscationRounds : ℤ) (queries : List COutPoint)
    (h : Runs.Meets (step w nObfuscationRounds) (Uncut w) (some ([], Dict.empty)) queries) :
    ∃ memo, Runs.run (step w nObfuscationRounds) (some ([], Dict.empty)) queries =
      some (queries.map fun o => min (depth w o) nObfuscationRounds, memo) := by
  simpa using run_spec w nObfuscationRounds queries [] (sound_empty w) h

/-- A mixing that spends the output of the one before it. -/
def link (hash : Uint256) : CTransaction :=
  ⟨hash, 1, if hash = 0 then [] else [{ prevout := ⟨hash - 1, 0⟩ }],
    [{ nValue := coin + 1000, scriptPubKey := [] }], 0⟩

def chain : Wallet where
  getWalletTx hash := if hash ≤ 16 then some (link hash) else none
  mine _ := true
  fresh := by
    intro hash wtx h out hout
    split_ifs at h
    obtain rfl := Option.some.inj h
    rw [List.mem_singleton.mp hout]
  acyclic := by
    refine Subrelation.wf ?_ (measure BitVec.toNat).wf
    rintro prev hash ⟨wtx, h, i, hi, rfl⟩
    split_ifs at h
    obtain rfl := Option.some.inj h
    unfold link at hi
    split_ifs at hi with h0
    · cases hi
    · rw [List.mem_singleton.mp hi]
      exact BitVec.lt_def.mp (by bv_omega)

theorem depths_of_run_two :
    ∃ memo, Runs.run (step chain 16) (some ([], Dict.empty)) [⟨1, 0⟩, ⟨2, 0⟩, ⟨1, 0⟩] =
      some ([⟨1, 0⟩, ⟨2, 0⟩, ⟨1, 0⟩].map fun o => min (depth chain o) 16, memo) :=
  depths_of_run chain 16 _ (by decide)

theorem depth_chain_zero : depth chain ⟨0, 0⟩ = 0 := by
  rw [depth_eq]
  exact (depthFrom_congr chain fun wtx hwtx i hi => by
    rw [← Option.some.inj hwtx] at hi
    cases hi).trans (show depthFrom chain (fun _ => 0) ⟨0, 0⟩ = 0 by decide)

theorem depth_chain_one : depth chain ⟨1, 0⟩ = 1 := by
  rw [depth_eq]
  exact (depthFrom_congr chain fun wtx hwtx i hi => by
    rw [← Option.some.inj hwtx] at hi
    rw [List.mem_singleton.mp hi]
    exact depth_chain_zero).trans (show depthFrom chain (fun _ => 0) ⟨1, 0⟩ = 1 by decide)

/-- A depth that was cut off on the way from far above is remembered. -/
theorem remembers_cut_off :
    ¬∀ (w : Wallet) (nObfuscationRounds : ℤ) (queries : List COutPoint),
      ∃ memo, Runs.run (step w nObfuscationRounds) (some ([], Dict.empty)) queries =
        some (queries.map fun o => min (depth w o) nObfuscationRounds, memo) := by
  intro h
  obtain ⟨memo, hrun⟩ := h chain 16 [⟨16, 0⟩, ⟨1, 0⟩]
  have hanswers : (Runs.run (step chain 16) (some ([], Dict.empty)) [⟨16, 0⟩, ⟨1, 0⟩]).map (·.1) =
      some [16, 16] := by decide
  rw [hrun, Option.map_some, Option.some.injEq, List.map_cons, List.map_cons, List.map_nil,
    depth_chain_one] at hanswers
  exact absurd hanswers (by simp)

end Queries

end Scrypta.MixingDepth
