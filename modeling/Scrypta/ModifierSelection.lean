import Mathlib.Data.List.MinMax
import Mathlib.Data.List.Perm.Subperm
import Scrypta.StakeBranch

/-! The blocks that a new stake modifier is drawn from. Each round takes one of the candidates
that are left: the one with the least selection hash among those that are early enough, or the
earliest one. -/

namespace Scrypta.Kernel

/-! The candidates as blocks. -/

def candidateKey (b : CBlockIndex) : ℤ × Uint256 := (b.getBlockTime, b.getBlockHash)

/-- The blocks below and at `pindexPrev` down to the start of the selection interval, by time and
then by hash. -/
def candidates (pindexPrev : CBlockIndex) (nSelectionIntervalStart : ℤ) : List CBlockIndex :=
  (pindexPrev.line.takeWhile fun b : CBlockIndex =>
    decide (nSelectionIntervalStart ≤ b.getBlockTime)).reverse.insertionSort
      fun a b => candidateLe (candidateKey a) (candidateKey b)

theorem sortedCandidates_eq (pindexPrev : CBlockIndex) (start : ℤ) :
    sortedCandidates pindexPrev start = (candidates pindexPrev start).map candidateKey := by
  rw [candidates, List.map_insertionSort _ (fun a b => candidateLe a b) _ _
    (fun _ _ _ _ => Iff.rfl)]
  rfl

theorem le_of_mem_candidates {pindexPrev b : CBlockIndex} {start : ℤ}
    (h : b ∈ candidates pindexPrev start) : b ≤ pindexPrev := by
  rw [candidates, List.mem_insertionSort, List.mem_reverse] at h
  exact List.takeWhile_subset _ h

theorem candidateLe_total (a b : ℤ × Uint256) : candidateLe a b ∨ candidateLe b a := by
  unfold candidateLe
  rcases lt_trichotomy a.1 b.1 with hlt | heq | hgt
  · exact Or.inl (Or.inl hlt)
  · rcases BitVec.le_total a.2 b.2 with hle | hle
    · exact Or.inl (Or.inr ⟨heq, hle⟩)
    · exact Or.inr (Or.inr ⟨heq.symm, hle⟩)
  · exact Or.inr (Or.inl hgt)

theorem candidateLe_trans {a b c : ℤ × Uint256} (hab : candidateLe a b) (hbc : candidateLe b c) :
    candidateLe a c := by
  rcases hab with hab | ⟨hab, hab'⟩ <;> rcases hbc with hbc | ⟨hbc, hbc'⟩
  · exact Or.inl (hab.trans hbc)
  · exact Or.inl (hbc ▸ hab)
  · exact Or.inl (hab ▸ hbc)
  · exact Or.inr ⟨hab.trans hbc, BitVec.le_trans hab' hbc'⟩

theorem time_le_of_candidateLe {a b : CBlockIndex}
    (h : candidateLe (candidateKey a) (candidateKey b)) : a.getBlockTime ≤ b.getBlockTime := by
  rcases h with hlt | ⟨heq, -⟩
  · exact le_of_lt hlt
  · exact le_of_eq heq

theorem pairwise_candidates (pindexPrev : CBlockIndex) (start : ℤ) :
    (candidates pindexPrev start).Pairwise fun a b =>
      candidateLe (candidateKey a) (candidateKey b) := by
  have : Std.Total fun a b : CBlockIndex => candidateLe (candidateKey a) (candidateKey b) :=
    ⟨fun _ _ => candidateLe_total _ _⟩
  have : IsTrans CBlockIndex fun a b => candidateLe (candidateKey a) (candidateKey b) :=
    ⟨fun _ _ _ => candidateLe_trans⟩
  exact List.pairwise_insertionSort _ _

/-! One round. -/

/-- The candidates that were not selected before. -/
def remaining (cs selected : List CBlockIndex) : List CBlockIndex :=
  cs.filter fun b => decide (b ∉ selected)

def isEarly (stop : ℤ) (b : CBlockIndex) : Bool := decide (b.getBlockTime ≤ stop)

/-- The first of the early candidates with the least hash, or the earliest of all. -/
def chosen (hashOf : CBlockIndex → Uint256) (cs selected : List CBlockIndex) (stop : ℤ) :
    Option CBlockIndex :=
  match ((remaining cs selected).filter (isEarly stop)).argmin fun b => (hashOf b).toNat with
  | some b => some b
  | none => (remaining cs selected).head?

/-- `b` is what the round takes. -/
structure Chosen (hashOf : CBlockIndex → Uint256) (cs selected : List CBlockIndex) (stop : ℤ)
    (b : CBlockIndex) : Prop where
  candidate : b ∈ cs
  fresh : b ∉ selected
  least : b.getBlockTime ≤ stop →
    ∀ c ∈ cs, c ∉ selected → c.getBlockTime ≤ stop → hashOf b ≤ hashOf c
  earliest : stop < b.getBlockTime → ∀ c ∈ cs, c ∉ selected →
    stop < c.getBlockTime ∧ candidateLe (candidateKey b) (candidateKey c)

theorem takeWhile_isEarly {cs : List CBlockIndex}
    (hsorted : cs.Pairwise fun a b => candidateLe (candidateKey a) (candidateKey b)) (stop : ℤ) :
    cs.takeWhile (isEarly stop) = cs.filter (isEarly stop) := by
  induction cs with
  | nil => rfl
  | cons b cs ih =>
    obtain ⟨hb, hcs⟩ := List.pairwise_cons.mp hsorted
    by_cases hearly : isEarly stop b = true
    · rw [List.takeWhile_cons_of_pos hearly, List.filter_cons_of_pos hearly, ih hcs]
    · rw [List.takeWhile_cons_of_neg hearly, List.filter_cons_of_neg hearly, eq_comm,
        List.filter_eq_nil_iff]
      intro c hc
      have hle := time_le_of_candidateLe (hb c hc)
      unfold isEarly at hearly ⊢
      rw [decide_eq_true_eq] at hearly ⊢
      omega

theorem chosen_spec {hashOf : CBlockIndex → Uint256} {cs selected : List CBlockIndex} {stop : ℤ}
    (hsorted : cs.Pairwise fun a b => candidateLe (candidateKey a) (candidateKey b))
    {b : CBlockIndex} (h : chosen hashOf cs selected stop = some b) :
    Chosen hashOf cs selected stop b := by
  have hmem {c : CBlockIndex} : c ∈ remaining cs selected ↔ c ∈ cs ∧ c ∉ selected := by
    rw [remaining, List.mem_filter, decide_eq_true_eq]
  have hmemEarly {c : CBlockIndex} : c ∈ (remaining cs selected).filter (isEarly stop) ↔
      (c ∈ cs ∧ c ∉ selected) ∧ c.getBlockTime ≤ stop := by
    rw [List.mem_filter, hmem, isEarly, decide_eq_true_eq]
  unfold chosen at h
  cases hmin : ((remaining cs selected).filter (isEarly stop)).argmin
      fun b => (hashOf b).toNat with
  | some c =>
    rw [hmin] at h
    obtain rfl := Option.some.inj h
    obtain ⟨⟨hcs, hfresh⟩, hearly⟩ := hmemEarly.mp (List.argmin_mem hmin)
    refine ⟨hcs, hfresh, fun _ d hd hd' hearly' => ?_, fun hlate => absurd hlate (by omega)⟩
    exact List.le_of_mem_argmin (hmemEarly.mpr ⟨⟨hd, hd'⟩, hearly'⟩) hmin
  | none =>
    rw [hmin] at h
    have hnone := List.argmin_eq_none.mp hmin
    have hlate {c : CBlockIndex} (hc : c ∈ cs) (hc' : c ∉ selected) : stop < c.getBlockTime := by
      by_contra hearly
      have hin := hmemEarly.mpr ⟨⟨hc, hc'⟩, not_lt.mp hearly⟩
      rw [hnone] at hin
      exact List.not_mem_nil hin
    obtain ⟨hcs, hfresh⟩ := hmem.mp (List.mem_of_head? h)
    refine ⟨hcs, hfresh, fun hearly => absurd (hlate hcs hfresh) (by omega), fun _ c hc hc' =>
      ⟨hlate hc hc', ?_⟩⟩
    -- The candidates that are left are in the order of all candidates.
    have hrest : (remaining cs selected).Pairwise fun a b =>
        candidateLe (candidateKey a) (candidateKey b) := hsorted.filter _
    obtain ⟨tail, htail⟩ := List.head?_eq_some_iff.mp h
    have hin := hmem.mpr ⟨hc, hc'⟩
    rw [htail] at hrest hin
    rcases List.mem_cons.mp hin with rfl | hin
    · exact Or.inr ⟨rfl, BitVec.le_refl _⟩
    · exact (List.pairwise_cons.mp hrest).1 c hin

theorem exists_chosen (hashOf : CBlockIndex → Uint256) {cs selected : List CBlockIndex} (stop : ℤ)
    (hnodup : cs.Nodup) (hlen : selected.length < cs.length) :
    ∃ b, chosen hashOf cs selected stop = some b := by
  have hsome : (remaining cs selected).head?.isSome = true := by
    rw [List.isSome_head?]
    intro hnone
    have hsub : cs ⊆ selected := by
      intro b hb
      by_contra hfresh
      have hin : b ∈ remaining cs selected := List.mem_filter.mpr ⟨hb, decide_eq_true hfresh⟩
      rw [hnone] at hin
      exact List.not_mem_nil hin
    have := (hnodup.subperm hsub).length_le
    omega
  unfold chosen
  cases ((remaining cs selected).filter (isEarly stop)).argmin fun b => (hashOf b).toNat with
  | some b => exact ⟨b, rfl⟩
  | none => exact Option.isSome_iff_exists.mp hsome

section Loop

variable {par : Params} {mapBlockIndex : BlockMap} {fModifierV2 : Bool}
  {mapSelectedBlocks : List Uint256} {stop : ℤ} {nStakeModifierPrev : BitVec 64}
  {cs selected : List CBlockIndex}

/-- With a best block the loop goes on as long as the candidates are early. -/
theorem selectLoop_some (hfind : ∀ b ∈ cs, mapBlockIndex.find b.getBlockHash = some b)
    (hsel : ∀ b ∈ cs, mapSelectedBlocks.contains b.getBlockHash = decide (b ∈ selected))
    (b : CBlockIndex) :
    selectLoop par mapBlockIndex fModifierV2 mapSelectedBlocks stop nStakeModifierPrev
        (cs.map candidateKey) (some (b, selectionHash par fModifierV2 nStakeModifierPrev b)) =
      some ((((cs.takeWhile (isEarly stop)).filter fun c => decide (c ∉ selected)).foldl
        (List.argAux fun c d => (selectionHash par fModifierV2 nStakeModifierPrev c).toNat <
          (selectionHash par fModifierV2 nStakeModifierPrev d).toNat) (some b)).map
        fun c => (c, selectionHash par fModifierV2 nStakeModifierPrev c)) := by
  induction cs generalizing b with
  | nil => rfl
  | cons c cs ih =>
    have hrest := ih (fun d hd => hfind d (List.mem_cons_of_mem _ hd))
      fun d hd => hsel d (List.mem_cons_of_mem _ hd)
    simp only [List.map_cons, selectLoop, candidateKey, hfind c List.mem_cons_self,
      Option.isSome_some, Bool.true_and]
    by_cases hlate : stop < c.getBlockTime
    · have hearly : ¬isEarly stop c = true := by
        rw [isEarly, decide_eq_true_eq]
        omega
      rw [List.takeWhile_cons_of_neg hearly, if_pos (decide_eq_true hlate)]
      rfl
    · have hearly : isEarly stop c = true := decide_eq_true (not_lt.mp hlate)
      rw [List.takeWhile_cons_of_pos hearly, if_neg (by simpa using hlate),
        hsel c List.mem_cons_self]
      by_cases hin : c ∈ selected
      · rw [if_pos (decide_eq_true hin), List.filter_cons_of_neg (by simpa using hin)]
        exact hrest b
      · rw [if_neg (by simpa using hin), List.filter_cons_of_pos (by simpa using hin),
          List.foldl_cons]
        by_cases hless : selectionHash par fModifierV2 nStakeModifierPrev c <
            selectionHash par fModifierV2 nStakeModifierPrev b
        · have hpick : List.argAux (fun c d =>
              (selectionHash par fModifierV2 nStakeModifierPrev c).toNat <
                (selectionHash par fModifierV2 nStakeModifierPrev d).toNat) (some b) c = some c :=
            if_pos hless
          rw [hpick, if_pos (decide_eq_true hless)]
          exact hrest c
        · have hpick : List.argAux (fun c d =>
              (selectionHash par fModifierV2 nStakeModifierPrev c).toNat <
                (selectionHash par fModifierV2 nStakeModifierPrev d).toNat) (some b) c = some b :=
            if_neg hless
          rw [hpick, if_neg (by simpa using hless)]
          exact hrest b

theorem selectLoop_eq (hfind : ∀ b ∈ cs, mapBlockIndex.find b.getBlockHash = some b)
    (hsel : ∀ b ∈ cs, mapSelectedBlocks.contains b.getBlockHash = decide (b ∈ selected))
    (hsorted : cs.Pairwise fun a b => candidateLe (candidateKey a) (candidateKey b)) :
    selectLoop par mapBlockIndex fModifierV2 mapSelectedBlocks stop nStakeModifierPrev
        (cs.map candidateKey) none =
      some ((chosen (selectionHash par fModifierV2 nStakeModifierPrev) cs selected stop).map
        fun c => (c, selectionHash par fModifierV2 nStakeModifierPrev c)) := by
  induction cs with
  | nil => rfl
  | cons c cs ih =>
    obtain ⟨hc, hcs⟩ := List.pairwise_cons.mp hsorted
    have hfind' : ∀ b ∈ cs, mapBlockIndex.find b.getBlockHash = some b :=
      fun d hd => hfind d (List.mem_cons_of_mem _ hd)
    have hsel' : ∀ b ∈ cs, mapSelectedBlocks.contains b.getBlockHash = decide (b ∈ selected) :=
      fun d hd => hsel d (List.mem_cons_of_mem _ hd)
    simp only [List.map_cons, selectLoop, candidateKey, hfind c List.mem_cons_self,
      Option.isSome_none, Bool.false_and, Bool.false_eq_true, if_false, hsel c List.mem_cons_self]
    by_cases hin : c ∈ selected
    · have hrest : remaining (c :: cs) selected = remaining cs selected :=
        List.filter_cons_of_neg (by simpa using hin)
      rw [if_pos (decide_eq_true hin)]
      unfold chosen
      rw [hrest]
      exact ih hfind' hsel' hcs
    · have hrest : remaining (c :: cs) selected = c :: remaining cs selected :=
        List.filter_cons_of_pos (by simpa using hin)
      rw [if_neg (by simpa using hin), if_true]
      refine (selectLoop_some hfind' hsel' c).trans (congrArg some (congrArg _ ?_))
      unfold chosen
      rw [hrest, takeWhile_isEarly hcs, List.filter_comm, ← remaining]
      by_cases hearly : isEarly stop c = true
      · rw [List.filter_cons_of_pos hearly]
        generalize (remaining cs selected).filter (isEarly stop) = early
        have hmin : (c :: early).argmin (fun d => (selectionHash par fModifierV2
            nStakeModifierPrev d).toNat) = early.foldl (List.argAux fun c d =>
              (selectionHash par fModifierV2 nStakeModifierPrev c).toNat <
                (selectionHash par fModifierV2 nStakeModifierPrev d).toNat) (some c) := rfl
        cases hd : (c :: early).argmin fun d => (selectionHash par fModifierV2
            nStakeModifierPrev d).toNat with
        | some d => exact hmin.symm.trans hd
        | none => exact absurd (List.argmin_eq_none.mp hd) (List.cons_ne_nil _ _)
      · have hnone : (remaining cs selected).filter (isEarly stop) = [] := by
          rw [List.filter_eq_nil_iff]
          intro d hd
          have hle := time_le_of_candidateLe (hc d (List.mem_of_mem_filter hd))
          unfold isEarly at hearly ⊢
          rw [decide_eq_true_eq] at hearly ⊢
          omega
        rw [List.filter_cons_of_neg hearly, hnone]
        rfl

/-- The version flag is that of the first candidate. -/
def usesModifierV2 (par : Params) (cs : List CBlockIndex) : Bool :=
  cs.head?.any fun b => par.modifierUpgradeBlock ≤ b.height

theorem selectBlockFromCandidates_eq
    (hfind : ∀ b ∈ cs, mapBlockIndex.find b.getBlockHash = some b)
    (hsel : ∀ b ∈ cs, mapSelectedBlocks.contains b.getBlockHash = decide (b ∈ selected))
    (hsorted : cs.Pairwise fun a b => candidateLe (candidateKey a) (candidateKey b)) :
    selectBlockFromCandidates par mapBlockIndex (cs.map candidateKey) mapSelectedBlocks stop
        nStakeModifierPrev =
      chosen (selectionHash par (usesModifierV2 par cs) nStakeModifierPrev) cs selected stop := by
  have hfirst : ((cs.map candidateKey).head?.bind fun item => mapBlockIndex.find item.2) =
      cs.head? := by
    cases cs with
    | nil => rfl
    | cons c cs => exact hfind c List.mem_cons_self
  have hversion : (cs.head?.any fun b => par.modifierUpgradeBlock ≤ b.height) =
      usesModifierV2 par cs := rfl
  simp only [selectBlockFromCandidates, hfirst, hversion, selectLoop_eq hfind hsel hsorted,
    Option.join_some, Option.map_map]
  exact Option.map_id'

end Loop

/-! All rounds. -/

/-- The time up to which the round draws. -/
def roundStop (start : ℤ) (nRound : ℕ) : ℤ :=
  start + ((List.range (nRound + 1)).map getStakeModifierSelectionIntervalSection).sum

/-- What a run of `k` rounds has drawn. -/
structure Drawn (hashOf : CBlockIndex → Uint256) (cs : List CBlockIndex) (start : ℤ) (k : ℕ)
    (r : Rounds) (bs : List CBlockIndex) : Prop where
  stop : r.nSelectionIntervalStop =
    start + ((List.range k).map getStakeModifierSelectionIntervalSection).sum
  selected : r.mapSelectedBlocks = (bs.map CBlockIndex.getBlockHash).reverse
  length : bs.length = k
  nodup : bs.Nodup
  round : ∀ i b, bs[i]? = some b → Chosen hashOf cs (bs.take i) (roundStop start i) b
  bits : ∀ i, r.nStakeModifierNew.getLsbD i = bs[i]?.any CBlockIndex.getStakeEntropyBit

theorem Drawn.subset {hashOf : CBlockIndex → Uint256} {cs : List CBlockIndex} {start : ℤ} {k : ℕ}
    {r : Rounds} {bs : List CBlockIndex} (h : Drawn hashOf cs start k r bs) : bs ⊆ cs := by
  intro b hb
  obtain ⟨i, hi⟩ := List.mem_iff_getElem?.mp hb
  exact (h.round i b hi).candidate

section Rounds

variable {par : Params} {mapBlockIndex : BlockMap} {nStakeModifierPrev : BitVec 64}
  {cs : List CBlockIndex} {start : ℤ}

/-- Blocks of the index with one hash are one block. -/
theorem contains_selected (hfind : ∀ b ∈ cs, mapBlockIndex.find b.getBlockHash = some b)
    {bs : List CBlockIndex} (hsub : bs ⊆ cs) {b : CBlockIndex} (hb : b ∈ cs) :
    (bs.map CBlockIndex.getBlockHash).reverse.contains b.getBlockHash = decide (b ∈ bs) := by
  rw [Bool.eq_iff_iff, List.contains_iff_mem, List.mem_reverse, decide_eq_true_eq, List.mem_map]
  constructor
  · rintro ⟨c, hc, hhash⟩
    have hfound := hfind c (hsub hc)
    rw [hhash, hfind b hb] at hfound
    rwa [Option.some.inj hfound]
  · intro hin
    exact ⟨b, hin, rfl⟩

theorem getLsbD_addBit (nStakeModifierNew : BitVec 64) (bit : Bool) {k : ℕ} (hk : k < 64) (i : ℕ) :
    (nStakeModifierNew ||| (BitVec.ofBool bit).setWidth 64 <<< k).getLsbD i =
      (nStakeModifierNew.getLsbD i || (decide (i = k) && bit)) := by
  rw [BitVec.getLsbD_or, BitVec.getLsbD_shiftLeft, BitVec.getLsbD_setWidth, BitVec.getLsbD_ofBool]
  by_cases hik : i = k
  · subst hik
    simp [hk]
  · have hzero : i - k ≠ 0 ∨ i < k := by omega
    rcases hzero with hzero | hlt
    · simp [hik, hzero]
    · simp [hik, hlt]

theorem selectionRound_drawn (hfind : ∀ b ∈ cs, mapBlockIndex.find b.getBlockHash = some b)
    (hsorted : cs.Pairwise fun a b => candidateLe (candidateKey a) (candidateKey b))
    (hnodup : cs.Nodup) {k : ℕ} (hk : k < 64) (hlen : k < cs.length) {r : Rounds}
    {bs : List CBlockIndex}
    (h : Drawn (selectionHash par (usesModifierV2 par cs) nStakeModifierPrev) cs start k r bs) :
    ∃ r' b, selectionRound par mapBlockIndex (cs.map candidateKey) nStakeModifierPrev r k =
        some r' ∧
      Drawn (selectionHash par (usesModifierV2 par cs) nStakeModifierPrev) cs start (k + 1) r'
        (bs ++ [b]) := by
  have hstop : r.nSelectionIntervalStop + getStakeModifierSelectionIntervalSection k =
      roundStop start k := by
    rw [h.stop, roundStop, List.range_succ, List.map_append, List.sum_append]
    simp [Int.add_assoc]
  obtain ⟨b, hb⟩ := exists_chosen (selectionHash par (usesModifierV2 par cs) nStakeModifierPrev)
    (roundStop start k) hnodup (h.length.trans_lt hlen)
  have hselect : selectBlockFromCandidates par mapBlockIndex (cs.map candidateKey)
      r.mapSelectedBlocks (roundStop start k) nStakeModifierPrev = some b := by
    rw [h.selected, selectBlockFromCandidates_eq hfind
      (fun c hc => contains_selected hfind h.subset hc) hsorted, hb]
  have hround := chosen_spec hsorted hb
  have hrun : selectionRound par mapBlockIndex (cs.map candidateKey) nStakeModifierPrev r k =
      some ⟨roundStop start k,
        r.nStakeModifierNew ||| (BitVec.ofBool b.getStakeEntropyBit).setWidth 64 <<< k,
        b.getBlockHash :: r.mapSelectedBlocks⟩ := by
    simp only [selectionRound, hstop, hselect]
  refine ⟨_, b, hrun, ?_⟩
  exact {
    stop := by
      rw [roundStop]
    selected := by
      rw [h.selected, List.map_append, List.reverse_append]
      rfl
    length := by rw [List.length_append, h.length, List.length_singleton]
    nodup := List.concat_eq_append ▸ h.nodup.concat hround.fresh
    round := by
      intro i c hi
      rcases Nat.lt_trichotomy i bs.length with hlt | rfl | hgt
      · rw [List.getElem?_append_left hlt] at hi
        rw [List.take_append_of_le_length (le_of_lt hlt)]
        exact h.round i c hi
      · rw [List.getElem?_concat_length] at hi
        obtain rfl := Option.some.inj hi
        rw [List.take_left, h.length]
        exact hround
      · rw [List.getElem?_eq_none (by rw [List.length_append, List.length_singleton]; omega)] at hi
        cases hi
    bits := by
      intro i
      rw [getLsbD_addBit _ _ hk, h.bits]
      rcases Nat.lt_trichotomy i bs.length with hlt | rfl | hgt
      · have hne : i ≠ k := by
          rw [← h.length]
          omega
        rw [List.getElem?_append_left hlt, decide_eq_false hne, Bool.false_and, Bool.or_false]
      · rw [List.getElem?_eq_none le_rfl, List.getElem?_concat_length, decide_eq_true h.length]
        rfl
      · have hne : i ≠ k := by
          rw [← h.length]
          omega
        rw [List.getElem?_eq_none (le_of_lt hgt), List.getElem?_eq_none (by
          rw [List.length_append, List.length_singleton]
          omega), decide_eq_false hne]
        rfl }

variable (par nStakeModifierPrev start) in
theorem rounds_drawn (hfind : ∀ b ∈ cs, mapBlockIndex.find b.getBlockHash = some b)
    (hsorted : cs.Pairwise fun a b => candidateLe (candidateKey a) (candidateKey b))
    (hnodup : cs.Nodup) {k : ℕ} (hk : k ≤ 64) (hlen : k ≤ cs.length) :
    ∃ r bs, (List.range k).foldlM
        (selectionRound par mapBlockIndex (cs.map candidateKey) nStakeModifierPrev) ⟨start, 0, []⟩ =
        some r ∧
      Drawn (selectionHash par (usesModifierV2 par cs) nStakeModifierPrev) cs start k r bs := by
  induction k with
  | zero =>
    refine ⟨_, [], rfl, ?_⟩
    exact {
      stop := (Int.add_zero start).symm
      selected := rfl
      length := rfl
      nodup := List.nodup_nil
      round := fun i b h => nomatch h
      bits := fun i => BitVec.getLsbD_zero }
  | succ k ih =>
    obtain ⟨r, bs, hrun, hdrawn⟩ := ih (by omega) (by omega)
    obtain ⟨r', b, hround, hdrawn'⟩ := selectionRound_drawn hfind hsorted hnodup hk hlen hdrawn
    refine ⟨r', bs ++ [b], ?_, hdrawn'⟩
    rw [List.range_succ, List.foldlM_append, hrun]
    simp only [Option.bind_eq_bind, Option.bind_some, List.foldlM_cons, hround, List.foldlM_nil]
    rfl

end Rounds

/-! The next modifier. -/

theorem nodup_line (b : CBlockIndex) : b.line.Nodup := by
  induction b with
  | root a => exact List.nodup_singleton _
  | child p a ih =>
    rw [Lineage.line, List.nodup_cons]
    refine ⟨fun hmem => ?_, ih⟩
    have := Lineage.height_le_of_mem_line hmem
    rw [Lineage.height_child] at this
    omega

theorem nodup_candidates (pindexPrev : CBlockIndex) (start : ℤ) :
    (candidates pindexPrev start).Nodup := by
  rw [candidates, (List.perm_insertionSort _ _).nodup_iff, List.nodup_reverse]
  exact (nodup_line pindexPrev).sublist (List.takeWhile_sublist _)

/-- Where the selection interval of the block after `pindexPrev` begins. -/
def selectionStart (pindexPrev : CBlockIndex) : ℤ :=
  pindexPrev.getBlockTime / modifierInterval * modifierInterval -
    getStakeModifierSelectionInterval

/-- In a chain of the index whose last modifier is from an earlier interval, the block after it
generates a modifier: 64 candidates are drawn, or all when there are fewer, no one twice, and the
bit of each round is the entropy bit of its block. -/
theorem computeNextStakeModifier_draws {par : Params} {mapBlockIndex : BlockMap}
    {pindexPrev : CBlockIndex} {nStakeModifier : BitVec 64} {nModifierTime : ℤ}
    (hindex : ∀ b, b ≤ pindexPrev → mapBlockIndex.find b.getBlockHash = some b)
    (hheight : pindexPrev.height ≠ 0)
    (hlast : getLastStakeModifier pindexPrev = some (nStakeModifier, nModifierTime))
    (hold : nModifierTime / modifierInterval < pindexPrev.getBlockTime / modifierInterval) :
    ∃ (nStakeModifierNew : BitVec 64) (bs : List CBlockIndex),
      computeNextStakeModifier par mapBlockIndex pindexPrev = (nStakeModifierNew, true) ∧
      bs.length = min 64 (candidates pindexPrev (selectionStart pindexPrev)).length ∧
      bs.Nodup ∧
      (∀ i b, bs[i]? = some b → Chosen
        (selectionHash par (usesModifierV2 par
          (candidates pindexPrev (selectionStart pindexPrev))) nStakeModifier)
        (candidates pindexPrev (selectionStart pindexPrev)) (bs.take i)
        (roundStop (selectionStart pindexPrev) i) b) ∧
      ∀ i, nStakeModifierNew.getLsbD i = bs[i]?.any CBlockIndex.getStakeEntropyBit := by
  have hfind : ∀ b ∈ candidates pindexPrev (selectionStart pindexPrev),
      mapBlockIndex.find b.getBlockHash = some b := fun b hb => hindex b (le_of_mem_candidates hb)
  obtain ⟨r, bs, hrun, hdrawn⟩ := rounds_drawn par nStakeModifier (selectionStart pindexPrev) hfind
    (pairwise_candidates _ _) (nodup_candidates _ _) (Nat.min_le_left 64 _)
    (Nat.min_le_right 64 _)
  refine ⟨r.nStakeModifierNew, bs, ?_, hdrawn.length, hdrawn.nodup, hdrawn.round, hdrawn.bits⟩
  have hstart : pindexPrev.getBlockTime / modifierInterval * modifierInterval -
      getStakeModifierSelectionInterval = selectionStart pindexPrev := rfl
  simp only [computeNextStakeModifier, hheight, if_false, hlast, Int.not_le.mpr hold, hstart,
    sortedCandidates_eq, List.length_map, hrun]

/-- The index of the long branch of the fork before its tip. -/
def longIndex (par : Params) : BlockMap :=
  ((Dict.empty.insert 1 forkGenesis).insert 2 (forkCoin par)).insert 3 (forkLong par)

/-- The hour of the third block has no other candidate than that block, whose hash is odd. -/
theorem computeNextStakeModifier_draws_forkLong :
    ∃ (nStakeModifierNew : BitVec 64) (bs : List CBlockIndex),
      computeNextStakeModifier ⟨fun _ => 0, 0, 0⟩ (longIndex ⟨fun _ => 0, 0, 0⟩)
        (forkLong ⟨fun _ => 0, 0, 0⟩) = (nStakeModifierNew, true) ∧
      bs.length = 1 ∧
      ∀ i, nStakeModifierNew.getLsbD i = bs[i]?.any CBlockIndex.getStakeEntropyBit := by
  have hindex : ∀ b, b ≤ forkLong ⟨fun _ => 0, 0, 0⟩ →
      (longIndex ⟨fun _ => 0, 0, 0⟩).find b.getBlockHash = some b := by
    intro b hb
    rcases Lineage.le_child.mp hb with rfl | hb
    · decide
    rcases Lineage.le_child.mp hb with rfl | hb
    · decide
    · rw [Lineage.le_root.mp hb]
      decide
  obtain ⟨nStakeModifierNew, bs, hnew, hlen, -, -, hbits⟩ := computeNextStakeModifier_draws hindex
    (by decide) (show getLastStakeModifier (forkLong ⟨fun _ => 0, 0, 0⟩) = some (0, 60) from rfl)
    (by decide)
  exact ⟨nStakeModifierNew, bs, hnew, hlen, hbits⟩

end Scrypta.Kernel
