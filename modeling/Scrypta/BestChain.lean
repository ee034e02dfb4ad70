import Mathlib.Data.Finset.Max
import Scrypta.Chainstate

/-! Where activation ends. A round either gives the tip more work or finds a block that
`ConnectBlock` calls invalid, so the rounds end at the best candidate that connects. -/

namespace Scrypta.Chainstate

/-- The entry without its failures. -/
def Entry.clearFailed (e : Entry) : Entry :=
  { e with fFailedValid := false, fFailedChild := false }

/-- The block and its ancestors have data and are not known to be invalid. -/
def Live (n : Node) (b : CBlockIndex) : Prop := ∀ x ≤ b, unusable n x = false

/-- The block is on the active chain, or `ConnectBlock` connects it. -/
def Connects (orc : Blocks) (n : Node) (b : CBlockIndex) : Prop :=
  n.chainActive.contains b = true ∨ orc.connectBlock b = .connected

/-- The chain of the block connects. -/
def ChainConnects (orc : Blocks) (n : Node) (b : CBlockIndex) : Prop :=
  ∀ x ≤ b, Connects orc n x

/-- The lowest block under `c` that does not connect. -/
structure FirstRefused (orc : Blocks) (n : Node) (c b : CBlockIndex) : Prop where
  le : b ≤ c
  refused : ¬Connects orc n b
  first : ∀ x < b, Connects orc n x

/-- What activation does to the index: entries only become failed, and a block is called
invalid only after `ConnectBlock` said so. -/
structure Marks (orc : Blocks) (n n' : Node) : Prop where
  mapBlockIndex : n'.mapBlockIndex = n.mapBlockIndex
  address : n'.address = n.address
  nBlockSequenceId : n'.nBlockSequenceId = n.nBlockSequenceId
  entry : ∀ b, (n'.entry b).clearFailed = (n.entry b).clearFailed
  failedValid : ∀ b, (n.entry b).fFailedValid = true → (n'.entry b).fFailedValid = true
  refused : ∀ b, (n'.entry b).fFailedValid = true →
    (n.entry b).fFailedValid = true ∨ orc.connectBlock b = .invalid false

section Marks

variable {orc : Blocks} {n n' n'' : Node}

theorem Marks.refl (orc : Blocks) (n : Node) : Marks orc n n :=
  ⟨rfl, rfl, rfl, fun _ => rfl, fun _ h => h, fun _ h => Or.inl h⟩

theorem Marks.trans (h : Marks orc n n') (h' : Marks orc n' n'') : Marks orc n n'' where
  mapBlockIndex := h'.mapBlockIndex.trans h.mapBlockIndex
  address := h'.address.trans h.address
  nBlockSequenceId := h'.nBlockSequenceId.trans h.nBlockSequenceId
  entry b := (h'.entry b).trans (h.entry b)
  failedValid b hb := h'.failedValid b (h.failedValid b hb)
  refused b hb := (h'.refused b hb).elim (h.refused b) Or.inr

theorem Marks.nSequenceId (h : Marks orc n n') (b : CBlockIndex) :
    (n'.entry b).nSequenceId = (n.entry b).nSequenceId := by
  have he := congrArg Entry.nSequenceId (h.entry b)
  exact he

theorem Marks.rank (h : Marks orc n n') : n'.rank = n.rank := by
  funext b
  rw [Node.rank, Node.rank, h.nSequenceId, h.address]

/-- A change that leaves the entries alone. -/
theorem Marks.of_entry (hmap : n'.mapBlockIndex = n.mapBlockIndex)
    (haddress : n'.address = n.address) (hid : n'.nBlockSequenceId = n.nBlockSequenceId)
    (hentry : n'.entry = n.entry) : Marks orc n n' where
  mapBlockIndex := hmap
  address := haddress
  nBlockSequenceId := hid
  entry b := by rw [hentry]
  failedValid b hb := by rwa [hentry]
  refused b hb := Or.inl (by rwa [hentry] at hb)

theorem marks_setTip (n : Node) (b : Option CBlockIndex) : Marks orc n (n.setTip b) :=
  Marks.of_entry rfl rfl rfl rfl

theorem marks_connectTip (n : Node) (b : CBlockIndex) :
    Marks orc n (pruneBlockIndexCandidates (n.setTip (some b))) :=
  Marks.of_entry rfl rfl rfl rfl

theorem marks_invalidBlockFound {b : CBlockIndex} {corruptionPossible : Bool}
    (hb : orc.connectBlock b = .invalid corruptionPossible) :
    Marks orc n (invalidBlockFound n b corruptionPossible) := by
  cases corruptionPossible with
  | true => exact Marks.refl orc n
  | false =>
    refine ⟨rfl, rfl, rfl, fun x => ?_, fun x hx => ?_, fun x hx => ?_⟩
    · by_cases he : x = b
      · subst he
        simp [invalidBlockFound, Node.eraseCandidate, Node.modifyEntry, Entry.clearFailed]
      · simp [invalidBlockFound, Node.eraseCandidate, Node.modifyEntry, he]
    · by_cases he : x = b
      · simp [invalidBlockFound, Node.eraseCandidate, Node.modifyEntry, he]
      · simpa [invalidBlockFound, Node.eraseCandidate, Node.modifyEntry, he] using hx
    · by_cases he : x = b
      · exact Or.inr (he ▸ hb)
      · exact Or.inl (by
          simpa [invalidBlockFound, Node.eraseCandidate, Node.modifyEntry, he] using hx)

theorem entry_dropChain (n : Node) (z b : CBlockIndex) (younger : List CBlockIndex) :
    ((dropChain n z younger).entry b).clearFailed = (n.entry b).clearFailed ∧
      ((dropChain n z younger).entry b).fFailedValid = (n.entry b).fFailedValid := by
  simp only [dropChain]
  split
  · exact ⟨rfl, rfl⟩
  · exact ⟨rfl, rfl⟩

theorem marks_dropChain (n : Node) (z : CBlockIndex) (younger : List CBlockIndex) :
    Marks orc n (dropChain n z younger) where
  mapBlockIndex := rfl
  address := rfl
  nBlockSequenceId := rfl
  entry b := (entry_dropChain n z b younger).1
  failedValid b hb := (entry_dropChain n z b younger).2.trans hb
  refused b hb := Or.inl ((entry_dropChain n z b younger).2.symm.trans hb)

theorem marks_findMostWorkLoop {k : ℕ} {r : Option CBlockIndex}
    (h : findMostWorkLoop k n = (n', r)) : Marks orc n n' := by
  induction k generalizing n with
  | zero =>
    cases h
    exact Marks.refl orc _
  | succ k ih =>
    simp only [findMostWorkLoop] at h
    split at h
    · cases h
      exact Marks.refl orc _
    · split at h
      · cases h
        exact Marks.refl orc _
      · exact (marks_dropChain n _ _).trans (ih h)

theorem marks_disconnectLoop {f : Option CBlockIndex} {t : CBlockIndex} {a a' : Activation}
    {s : Status} (h : disconnectLoop orc f t a = (a', s)) : Marks orc a.node a'.node := by
  induction t generalizing a with
  | root x =>
    simp only [disconnectLoop] at h
    split at h
    · cases h
      exact Marks.refl orc _
    · split at h <;> cases h
      · exact marks_setTip _ _
      · exact Marks.refl orc _
  | child p x ih =>
    simp only [disconnectLoop] at h
    split at h
    · cases h
      exact Marks.refl orc _
    · split at h
      · exact (marks_setTip _ _).trans (ih h)
      · cases h
        exact Marks.refl orc _

theorem marks_connectLoop {old : Option CBlockIndex} {l : List CBlockIndex} {s : Status}
    (h : connectLoop orc old l n = (n', s)) : Marks orc n n' := by
  induction l generalizing n with
  | nil =>
    cases h
    exact Marks.refl orc _
  | cons b rest ih =>
    simp only [connectLoop] at h
    split at h
    · split at h
      · cases h
        exact marks_connectTip n b
      · exact (marks_connectTip n b).trans (ih h)
    · next hb =>
      cases h
      exact marks_invalidBlockFound hb
    · cases h
      exact Marks.refl orc _
    · cases h
      exact Marks.refl orc _

theorem marks_activateBestChainStep {m : CBlockIndex} {a a' : Activation} {s : Status}
    (h : activateBestChainStep orc m a = (a', s)) : Marks orc a.node a'.node := by
  cases ht : a.node.tip with
  | none =>
    simp only [activateBestChainStep, ht] at h
    generalize hc : connectLoop orc none _ a.node = e at h
    obtain ⟨e, es⟩ := e
    cases h
    exact marks_connectLoop hc
  | some t =>
    simp only [activateBestChainStep, ht] at h
    generalize hd : disconnectLoop orc _ t a = d at h
    obtain ⟨d, ds⟩ := d
    have hdisc : Marks orc a.node d.node := marks_disconnectLoop hd
    cases ds with
    | failed => cases h; exact hdisc
    | noReturn => cases h; exact hdisc
    | ok =>
      generalize hc : connectLoop orc (some t) _ d.node = e at h
      obtain ⟨e, es⟩ := e
      cases h
      exact hdisc.trans (marks_connectLoop hc)

/-- Whatever the rounds do, a block becomes invalid only by the word of `ConnectBlock`. -/
theorem marks_activateLoop {k : ℕ} {a a' : Activation} {s : Option Status}
    (h : activateLoop orc k a = (a', s)) : Marks orc a.node a'.node := by
  induction k generalizing a with
  | zero =>
    cases h
    exact Marks.refl orc _
  | succ k ih =>
    simp only [activateLoop] at h
    generalize hfind : findMostWorkChain a.node = r at h
    obtain ⟨n₁, m⟩ := r
    have hmarks : Marks orc a.node n₁ := marks_findMostWorkLoop hfind
    cases m with
    | none =>
      cases h
      exact hmarks
    | some m =>
      simp only at h
      split at h
      · cases h
        exact hmarks
      · generalize hstep : activateBestChainStep orc m { a with node := n₁ } = e at h
        obtain ⟨a₂, s₂⟩ := e
        have hmarks₂ := hmarks.trans (marks_activateBestChainStep hstep)
        cases s₂ with
        | failed => cases h; exact hmarks₂
        | noReturn => cases h; exact hmarks₂
        | ok =>
          simp only at h
          split at h
          · cases h
            exact hmarks₂
          · exact hmarks₂.trans (ih h)

end Marks

/-! The first block that does not connect. -/

section FirstRefused

variable {orc : Blocks} {n : Node} {b c z : CBlockIndex}

theorem FirstRefused.eq (hb : FirstRefused orc n c b) (hz : FirstRefused orc n c z) : b = z := by
  rcases Lineage.le_total_of_le hb.le hz.le with h | h
  · exact h.eq_or_lt.resolve_right fun hlt => hb.refused (hz.first b hlt)
  · exact (h.eq_or_lt.resolve_right fun hlt => hz.refused (hb.first z hlt)).symm

theorem FirstRefused.mono (hb : FirstRefused orc n c b) (hcz : c ≤ z) : FirstRefused orc n z b :=
  ⟨hb.le.trans hcz, hb.refused, hb.first⟩

end FirstRefused

/-! The state of an activation. -/

/-- A node whose tip is `t` and for which `m` is the best candidate that connects. Every better
candidate is turned down by an invalid block, and the blocks that are taken off for its sake
connect again. -/
structure Bound (orc : Blocks) (n : Node) (g t m : CBlockIndex) : Prop where
  tip : n.tip = some t
  usable : ∀ x ≤ t, unusable n x = false
  genesis : g ≤ t
  rooted : ∀ c ∈ n.setBlockIndexCandidates, g ≤ c
  data : ∀ c ∈ n.setBlockIndexCandidates, ∀ x ≤ c, (n.entry x).fHaveData = true
  ahead : ∀ c ∈ n.setBlockIndexCandidates, n.rank t ≤ n.rank c
  mem : m ∈ n.setBlockIndexCandidates
  live : Live n m
  connects : ChainConnects orc n m
  best : ∀ c ∈ n.setBlockIndexCandidates, Live n c → ∀ y ≤ c, ChainConnects orc n y →
    n.rank y ≤ n.rank m
  distinct : ∀ c ∈ n.setBlockIndexCandidates, ∀ d ∈ n.setBlockIndexCandidates,
    n.rank c = n.rank d → c = d
  disconnects : ∀ p x, orc.disconnectBlock (.child p x) = true
  refused : ∀ c ∈ n.setBlockIndexCandidates, Live n c → n.rank m < n.rank c →
    ∀ b, FirstRefused orc n c b → orc.connectBlock b = .invalid false
  reconnects : ∀ c ∈ n.setBlockIndexCandidates, Live n c → n.rank m < n.rank c →
    ∀ x ≤ t, ¬x ≤ c → orc.connectBlock x = .connected

/-- The blocks under the candidates. -/
def under (n : Node) : Finset CBlockIndex :=
  (n.setBlockIndexCandidates.flatMap Lineage.line).toFinset

theorem mem_under {n : Node} {b : CBlockIndex} :
    b ∈ under n ↔ ∃ c ∈ n.setBlockIndexCandidates, b ≤ c := by
  simp [under, Lineage.le_iff_mem_line]

/-- Every block has more work than the blocks below it. -/
def Growing (n : Node) (t : CBlockIndex) : Prop :=
  ∀ x y, x < y → y ≤ t ∨ y ∈ under n → nChainWork x < nChainWork y

/-- What every round keeps, from the node `n₀` at the start. -/
structure Trying (orc : Blocks) (n₀ : Node) (g t m t' : CBlockIndex) (n : Node) : Prop where
  marks : Marks orc n₀ n
  shrinks : Shrinks n₀ n
  mapBlocksUnlinked : n.mapBlocksUnlinked = n₀.mapBlocksUnlinked
  tip : n.tip = some t'
  genesis : g ≤ t'
  place : t' ≤ t ∨ t' ∈ under n₀
  chain : ∀ x ≤ t', Connects orc n₀ x ∧ unusable n x = false
  kept : ∀ c ∈ n₀.setBlockIndexCandidates, unusable n c = false → n₀.rank m ≤ n₀.rank c →
    c ∈ n.setBlockIndexCandidates
  ahead : Growing n₀ t → ∀ c ∈ n.setBlockIndexCandidates, n₀.rank t' ≤ n₀.rank c
  blamed : ∀ x, (n.entry x).failed = true → (∃ z ≤ x, (n₀.entry z).failed = true) ∨
    ∃ z, FirstRefused orc n₀ x z ∧ (n.entry z).fFailedValid = true
  back : ∀ x ≤ t, x ≤ t' ∨ orc.connectBlock x = .connected ∨
    (¬x ≤ m ∧ ∀ c ∈ n.setBlockIndexCandidates, n₀.rank c ≤ n₀.rank m)

section Trying

variable {orc : Blocks} {n₀ n n' : Node} {g t m t' b c : CBlockIndex}

theorem contains_iff_of_tip (ht : n.tip = some t) {x : CBlockIndex} :
    n.chainActive.contains x = true ↔ x ≤ t := by
  rw [CChain.contains_iff]
  constructor
  · rintro ⟨t₁, ht₁, hx⟩
    rw [show n.chainActive.tip = some t from ht] at ht₁
    cases ht₁
    exact hx
  · exact fun hx => ⟨t, ht, hx⟩

theorem Bound.trying (h : Bound orc n₀ g t m) : Trying orc n₀ g t m t n₀ where
  marks := Marks.refl orc n₀
  shrinks := Shrinks.refl n₀
  mapBlocksUnlinked := rfl
  tip := h.tip
  genesis := h.genesis
  place := Or.inl le_rfl
  ahead _ := h.ahead
  chain x hx := ⟨Or.inl ((contains_iff_of_tip h.tip).mpr hx), h.usable x hx⟩
  kept _ hc _ _ := hc
  blamed x hx := Or.inl ⟨x, le_rfl, hx⟩
  back _ hx := Or.inl hx

theorem Live.of_shrinks (h : Shrinks n₀ n) (hc : Live n c) : Live n₀ c :=
  fun x hx => h.usable (hc x hx)

theorem failed_of_unusable (h : unusable n b = true) (hdata : (n.entry b).fHaveData = true) :
    (n.entry b).failed = true := by
  simpa [unusable, hdata] using h

theorem not_failed_of_usable (h : unusable n b = false) : (n.entry b).failed = false := by
  rw [unusable, Bool.or_eq_false_iff] at h
  exact h.1

theorem Trying.data (h : Trying orc n₀ g t m t' n) (hb : Bound orc n₀ g t m)
    (hc : c ∈ n₀.setBlockIndexCandidates) {x : CBlockIndex} (hx : x ≤ c) :
    (n.entry x).fHaveData = true :=
  (h.shrinks.data x).trans (hb.data c hc x hx)

/-- The best candidate that connects is never touched. -/
theorem Trying.live (h : Trying orc n₀ g t m t' n) (hb : Bound orc n₀ g t m) : Live n m := by
  intro x hx
  by_contra hbad
  rw [Bool.not_eq_false] at hbad
  rcases h.blamed x (failed_of_unusable hbad (h.data hb hb.mem hx)) with
    ⟨z, hz, hzbad⟩ | ⟨z, hz, -⟩
  · rw [not_failed_of_usable (hb.live z (hz.trans hx))] at hzbad
    cases hzbad
  · exact hz.refused (hb.connects z (hz.le.trans hx))

theorem Trying.mem (h : Trying orc n₀ g t m t' n) (hb : Bound orc n₀ g t m) :
    m ∈ n.setBlockIndexCandidates :=
  h.kept m hb.mem (h.live hb m le_rfl) le_rfl

/-- A candidate whose blocks off the active chain are usable is usable as a whole. -/
theorem Trying.live_of_usablePath (h : Trying orc n₀ g t m t' n) (hc : UsablePath n c) :
    Live n c := by
  intro x hx
  rcases hc x hx with hx' | hx'
  · exact (h.chain x ((contains_iff_of_tip h.tip).mp hx')).2
  · exact hx'

/-- Under a failed block, the blocks above it fail with it. -/
theorem failed_dropChain {z x : CBlockIndex} {younger : List CBlockIndex}
    (hz : (n.entry z).failed = true) :
    ((dropChain n z younger).entry x).failed = true ↔
      (n.entry x).failed = true ∨ x ∈ younger := by
  simp only [dropChain, hz, Bool.true_and, List.contains_iff_mem]
  split
  · next hx => simp [Entry.failed, hx]
  · next hx => simp [hx]

theorem le_of_mem_takeWhile_line {p z x : CBlockIndex} {q : CBlockIndex → Bool} (hz : z ≤ p)
    (hx : x ∈ (p.line.takeWhile q).takeWhile (· ≠ z)) : z ≤ x := by
  induction p with
  | root a =>
    obtain rfl := Lineage.le_root.mp hz
    cases hq : q (.root a) <;> simp [Lineage.line, hq] at hx
  | child p a ih =>
    cases hq : q (.child p a) with
    | false => simp [Lineage.line, hq] at hx
    | true =>
      by_cases he : Lineage.child p a = z
      · rw [Lineage.line, List.takeWhile_cons, if_pos hq, List.takeWhile_cons,
          if_neg (by simpa using he)] at hx
        cases hx
      · rw [Lineage.line, List.takeWhile_cons, if_pos hq, List.takeWhile_cons,
          if_pos (by simpa using he)] at hx
        rcases List.mem_cons.mp hx with rfl | hx
        · exact hz
        · exact ih ((Lineage.le_child.mp hz).resolve_left fun h => he h.symm) hx

/-- The blocks that are dropped together with an unusable one lie above it. -/
theorem mem_younger {p z x : CBlockIndex} (hz : z ∈ offChain n p)
    (hx : x ∈ (offChain n p).takeWhile (· ≠ z)) :
    z ≤ x ∧ n.chainActive.contains x = false :=
  ⟨le_of_mem_takeWhile_line (mem_offChain.mp hz).1 hx,
    (mem_offChain.mp ((List.takeWhile_prefix _).subset hx)).2⟩

theorem self_mem_dropped {p z : CBlockIndex} (hz : z ∈ offChain n p) :
    p ∈ z :: (offChain n p).takeWhile (· ≠ z) := by
  obtain ⟨rest, hrest⟩ : ∃ rest, offChain n p = p :: rest := by
    cases hc : n.chainActive.contains p with
    | true => cases p <;> simp [offChain, Lineage.line, hc] at hz
    | false => cases p <;> simp [offChain, Lineage.line, hc]
  by_cases he : p = z
  · exact he ▸ List.mem_cons_self
  · rw [hrest, List.takeWhile_cons, if_pos (by simpa using he)]
    exact List.mem_cons_of_mem _ List.mem_cons_self

theorem Trying.dropChain {p z : CBlockIndex} (h : Trying orc n₀ g t m t' n)
    (hz : z ∈ offChain n p) (hbad : (n.entry z).failed = true) :
    Trying orc n₀ g t m t' (dropChain n z ((offChain n p).takeWhile (· ≠ z))) := by
  set younger := (offChain n p).takeWhile (· ≠ z) with hyounger
  have hshrinks := shrinks_dropChain n z younger
  have hfailed (x : CBlockIndex) := (entry_dropChain n z x younger).2
  refine {
    marks := h.marks.trans (marks_dropChain n z younger)
    shrinks := h.shrinks.trans hshrinks
    mapBlocksUnlinked := by
      rw [← h.mapBlocksUnlinked]
      simp only [Chainstate.dropChain, hbad, if_true]
    tip := h.tip
    genesis := h.genesis
    place := h.place
    chain := fun x hx => ⟨(h.chain x hx).1, ?_⟩
    kept := fun c hc husable hrank => ?_
    ahead := fun hgrow c hc => h.ahead hgrow c (hshrinks.candidates c hc)
    blamed := fun x hx => ?_
    back := fun x hx => ?_ }
  · have husable := (h.chain x hx).2
    rw [unusable, Bool.or_eq_false_iff] at husable ⊢
    refine ⟨?_, by rw [hshrinks.data x]; exact husable.2⟩
    by_contra hx'
    rw [Bool.not_eq_false] at hx'
    rcases (failed_dropChain hbad).mp hx' with hx' | hmem
    · rw [husable.1] at hx'
      cases hx'
    · have hoff := (mem_younger hz hmem).2
      rw [(contains_iff_of_tip h.tip).mpr hx] at hoff
      cases hoff
  · refine List.mem_filter.mpr ⟨h.kept c hc (hshrinks.usable husable) hrank, ?_⟩
    by_contra hin
    rw [Bool.not_eq_true', Bool.not_eq_false, List.contains_iff_mem] at hin
    -- a block that is dropped here has failed
    have hcfailed : ((Chainstate.dropChain n z younger).entry c).failed = true := by
      rcases List.mem_cons.mp hin with rfl | hin
      · exact hshrinks.failed c hbad
      · exact (failed_dropChain hbad).mpr (Or.inr hin)
    rw [not_failed_of_usable husable] at hcfailed
    cases hcfailed
  · have hblame {w y : CBlockIndex} (hwy : w ≤ y) :
        ((∃ z ≤ w, (n₀.entry z).failed = true) ∨
          ∃ z, FirstRefused orc n₀ w z ∧ (n.entry z).fFailedValid = true) →
        (∃ z ≤ y, (n₀.entry z).failed = true) ∨
          ∃ z', FirstRefused orc n₀ y z' ∧
            ((Chainstate.dropChain n z younger).entry z').fFailedValid = true := by
      rintro (⟨v, hv, hvbad⟩ | ⟨v, hv, hvbad⟩)
      · exact Or.inl ⟨v, hv.trans hwy, hvbad⟩
      · exact Or.inr ⟨v, hv.mono hwy, (hfailed v).trans hvbad⟩
    rcases (failed_dropChain hbad).mp hx with hx | hmem
    · exact hblame le_rfl (h.blamed x hx)
    · exact hblame (mem_younger hz hmem).1 (h.blamed z hbad)
  · rcases h.back x hx with hx | hx | ⟨hxm, hle⟩
    · exact Or.inl hx
    · exact Or.inr (Or.inl hx)
    · exact Or.inr (Or.inr ⟨hxm, fun c hc => hle c (hshrinks.candidates c hc)⟩)

/-- Finding the best chain ends at a usable candidate, and no candidate that is left is
better. -/
theorem Trying.findMostWork {k : ℕ} {r : Option CBlockIndex} (h : Trying orc n₀ g t m t' n)
    (hb : Bound orc n₀ g t m) (hk : n.setBlockIndexCandidates.length < k)
    (hr : findMostWorkLoop k n = (n', r)) :
    Trying orc n₀ g t m t' n' ∧ ∃ c, r = some c ∧ c ∈ n'.setBlockIndexCandidates ∧
      Live n' c ∧ ∀ d ∈ n'.setBlockIndexCandidates, n₀.rank d ≤ n₀.rank c := by
  induction k generalizing n with
  | zero => omega
  | succ k ih =>
    simp only [findMostWorkLoop] at hr
    split at hr
    · next hnone =>
      have hmem := h.mem hb
      rw [Node.bestCandidate, List.argmax_eq_none] at hnone
      simp [hnone] at hmem
    · next p hp =>
      split at hr
      · next hfind =>
        cases hr
        refine ⟨h, p, rfl, List.argmax_mem hp,
          h.live_of_usablePath (usablePath_of_find hfind), fun d hd => ?_⟩
        rw [← h.marks.rank]
        exact List.le_of_mem_argmax hd hp
      · next z hz =>
        have hoff := List.mem_of_find?_eq_some hz
        have hpc := h.shrinks.candidates p (List.argmax_mem hp)
        have hbad := failed_of_unusable (List.find?_some hz)
          (h.data hb hpc (mem_offChain.mp hoff).1)
        refine ih (h.dropChain hoff hbad) ?_ hr
        refine lt_of_lt_of_le (List.length_filter_lt_length_iff_exists.mpr
          ⟨p, List.argmax_mem hp, ?_⟩) (Nat.lt_succ_iff.mp hk)
        rw [List.contains_iff_mem.mpr (self_mem_dropped hoff)]
        simp

theorem rank_lt (h : nChainWork b < nChainWork c) : n.rank b < n.rank c :=
  Prod.Lex.toLex_lt_toLex.mpr (Or.inl h)

theorem Trying.eq_or_lt (h : Trying orc n₀ g t m t' n) (hb : Bound orc n₀ g t m)
    (hc : c ∈ n.setBlockIndexCandidates)
    (hmax : ∀ d ∈ n.setBlockIndexCandidates, n₀.rank d ≤ n₀.rank c) :
    c = m ∨ n₀.rank m < n₀.rank c := by
  rcases (hmax m (h.mem hb)).eq_or_lt with heq | hlt
  · exact Or.inl (hb.distinct c (h.shrinks.candidates c hc) m hb.mem heq.symm)
  · exact Or.inr hlt

/-- The chain is taken down to the fork with the best candidate. -/
theorem Trying.takeOff {f : CBlockIndex} (h : Trying orc n₀ g t m t' n)
    (hb : Bound orc n₀ g t m) (hc : c ∈ n.setBlockIndexCandidates) (hlive : Live n c)
    (hmax : ∀ d ∈ n.setBlockIndexCandidates, n₀.rank d ≤ n₀.rank c) (hft : f ≤ t')
    (hgf : g ≤ f) (hfork : ∀ x, x ≤ t' → x ≤ c → x ≤ f) :
    Trying orc n₀ g t m f (n.setTip (some f)) := by
  refine {
    marks := h.marks.trans (marks_setTip n _)
    shrinks := h.shrinks.trans (shrinks_setTip n _)
    mapBlocksUnlinked := h.mapBlocksUnlinked
    tip := Node.tip_setTip n _
    genesis := hgf
    place := h.place.imp hft.trans fun hu => (mem_under.mp hu).elim fun c hc =>
      mem_under.mpr ⟨c, hc.1, hft.trans hc.2⟩
    chain := fun x hx => h.chain x (hx.trans hft)
    kept := h.kept
    ahead := fun hgrow d hd => ?_
    blamed := h.blamed
    back := fun x hx => ?_ }
  · refine le_trans ?_ (h.ahead hgrow d hd)
    rcases hft.eq_or_lt with rfl | hlt
    · exact le_rfl
    · exact (rank_lt (hgrow f t' hlt h.place)).le
  · have hc₀ := h.shrinks.candidates c hc
    rcases h.back x hx with hxt | hxv | hxm
    · by_cases hxc : x ≤ c
      · exact Or.inl (hfork x hxt hxc)
      · rcases h.eq_or_lt hb hc hmax with rfl | hlt
        · exact Or.inr (Or.inr ⟨hxc, hmax⟩)
        · exact Or.inr (Or.inl (hb.reconnects c hc₀ (hlive.of_shrinks h.shrinks) hlt x hx hxc))
    · exact Or.inr (Or.inl hxv)
    · exact Or.inr (Or.inr hxm)

theorem Trying.connect {p : CBlockIndex} {x : BlockInfo} (h : Trying orc n₀ g t m p n)
    (hb : Bound orc n₀ g t m) (hc : c ∈ n₀.setBlockIndexCandidates) (hlive : Live n c)
    (hle : .child p x ≤ c) (hv : orc.connectBlock (.child p x) = .connected) :
    Trying orc n₀ g t m (.child p x)
      (pruneBlockIndexCandidates (n.setTip (some (.child p x)))) := by
  have hshrinks := (shrinks_setTip n (some (.child p x))).trans (shrinks_prune _)
  have hchain (y : CBlockIndex) (hy : y ≤ .child p x) :
      Connects orc n₀ y ∧ unusable n y = false := by
    rcases Lineage.le_child.mp hy with rfl | hy
    · exact ⟨Or.inr hv, hlive _ hle⟩
    · exact h.chain y hy
  have hrank' : (n.setTip (some (.child p x))).rank = n₀.rank := h.marks.rank
  refine {
    marks := h.marks.trans (marks_connectTip n _)
    shrinks := h.shrinks.trans hshrinks
    mapBlocksUnlinked := h.mapBlocksUnlinked
    tip := Node.tip_setTip n _
    genesis := h.genesis.trans (Lineage.parent_le p x)
    place := Or.inr (mem_under.mpr ⟨c, hc, hle⟩)
    chain := hchain
    kept := fun d hd hdlive hrank => List.mem_filter.mpr ⟨h.kept d hd hdlive hrank, ?_⟩
    ahead := fun _ d hd => ?_
    blamed := h.blamed
    back := fun y hy => ?_ }
  · -- the new tip is no better than `m`, so what is at least as good as `m` stays
    have hbest := hb.best c hc (hlive.of_shrinks h.shrinks) _ hle fun y hy => (hchain y hy).1
    rw [Node.tip_setTip]
    simp only [Bool.not_eq_true']
    by_contra hless
    rw [Bool.not_eq_false, Node.workLess_iff] at hless
    rw [hrank'] at hless
    exact absurd (hrank.trans_lt hless) (not_lt_of_ge hbest)
  · have hnotless := (List.mem_filter.mp hd).2
    rw [Node.tip_setTip] at hnotless
    simp only [Bool.not_eq_true', Bool.eq_false_iff, ne_eq, Node.workLess_iff] at hnotless
    rw [← hrank']
    exact not_lt.mp hnotless
  · rcases h.back y hy with hyp | hyv | ⟨hym, hle⟩
    · exact Or.inl (hyp.trans (Lineage.parent_le p x))
    · exact Or.inr (Or.inl hyv)
    · exact Or.inr (Or.inr ⟨hym, fun d hd => hle d (hshrinks.candidates d hd)⟩)

theorem fFailedValid_invalidBlockFound (n : Node) (b : CBlockIndex) :
    ((invalidBlockFound n b false).entry b).fFailedValid = true := by
  simp [invalidBlockFound, Node.eraseCandidate, Node.modifyEntry]

theorem entry_invalidBlockFound {x : CBlockIndex} (hx : x ≠ b) :
    (invalidBlockFound n b false).entry x = n.entry x := by
  simp [invalidBlockFound, Node.eraseCandidate, Node.modifyEntry, hx]

theorem Trying.refuse {p : CBlockIndex} {x : BlockInfo} (h : Trying orc n₀ g t m p n)
    (hv : orc.connectBlock (.child p x) = .invalid false)
    (hbad : ¬Connects orc n₀ (.child p x)) :
    Trying orc n₀ g t m p (invalidBlockFound n (.child p x) false) := by
  have hshrinks := shrinks_invalidBlockFound n (.child p x) false
  have hmarks : Marks orc n (invalidBlockFound n (.child p x) false) := marks_invalidBlockFound hv
  have hfirst : FirstRefused orc n₀ (.child p x) (.child p x) :=
    ⟨le_rfl, hbad, fun y hy => (h.chain y ((Lineage.le_child.mp hy.le).resolve_left hy.ne)).1⟩
  refine {
    marks := h.marks.trans hmarks
    shrinks := h.shrinks.trans hshrinks
    mapBlocksUnlinked := h.mapBlocksUnlinked
    tip := h.tip
    genesis := h.genesis
    place := h.place
    chain := fun y hy => ⟨(h.chain y hy).1, ?_⟩
    kept := fun d hd husable hrank => List.mem_filter.mpr
      ⟨h.kept d hd (hshrinks.usable husable) hrank, ?_⟩
    ahead := fun hgrow d hd => h.ahead hgrow d (hshrinks.candidates d hd)
    blamed := fun y hy => ?_
    back := fun y hy => ?_ }
  · have hne : y ≠ .child p x := fun he => hbad (he ▸ (h.chain y hy).1)
    rw [unusable, entry_invalidBlockFound hne]
    exact (h.chain y hy).2
  · rw [decide_eq_true_eq]
    rintro rfl
    rw [unusable, Entry.failed, fFailedValid_invalidBlockFound] at husable
    cases husable
  · by_cases he : y = .child p x
    · rw [he]
      exact Or.inr ⟨_, hfirst, fFailedValid_invalidBlockFound n _⟩
    · rw [entry_invalidBlockFound he] at hy
      rcases h.blamed y hy with hz | ⟨z, hz, hzbad⟩
      · exact Or.inl hz
      · exact Or.inr ⟨z, hz, hmarks.failedValid z hzbad⟩
  · rcases h.back y hy with hyp | hyv | ⟨hym, hle⟩
    · exact Or.inl hyp
    · exact Or.inr (Or.inl hyv)
    · exact Or.inr (Or.inr ⟨hym, fun d hd => hle d (hshrinks.candidates d hd)⟩)

theorem drop_branch_eq_cons {p : CBlockIndex} {rest : List CBlockIndex} (hpc : p ≤ c)
    (h : c.branch.drop (p.height + 1) = b :: rest) :
    ∃ x, b = .child p x ∧ b ≤ c ∧ rest = c.branch.drop (b.height + 1) := by
  have hget : c.branch[p.height + 1]? = some b := by
    have hhead : (c.branch.drop (p.height + 1))[0]? = some b := by rw [h]; rfl
    rwa [List.getElem?_drop, Nat.add_zero] at hhead
  obtain ⟨hbc, hh⟩ := Lineage.getElem?_branch.mp hget
  refine ⟨b.label, ?_, hbc, ?_⟩
  · cases b with
    | root a => simp at hh
    | child q a =>
      have hqp : q = p := by
        have hqc := (Lineage.parent_le q a).trans hbc
        have hheight : q.height = p.height := by simpa using hh
        exact Lineage.eq_of_le_of_height (Lineage.le_of_height_le hqc hpc hheight.le) hheight
      rw [hqp]
      rfl
  · have htail := congrArg List.tail h
    rw [List.tail_drop, List.tail_cons] at htail
    rw [hh, htail]

/-- A block of `c` that was in order is now marked as invalid. -/
def Blames (n n' : Node) (c : CBlockIndex) : Prop :=
  ∃ b ≤ c, (n.entry b).fFailedValid = false ∧ (n'.entry b).fFailedValid = true

theorem Live.fFailedValid (h : Live n c) (hbc : b ≤ c) : (n.entry b).fFailedValid = false := by
  have hb := h b hbc
  rw [unusable, Entry.failed] at hb
  simp only [Bool.or_eq_false_iff] at hb
  exact hb.1.1

/-- Connecting ends at the candidate, at a block with more work than the old tip, or at a
block that is marked as invalid. -/
theorem Trying.connectLoop {old : Option CBlockIndex} {p : CBlockIndex} {l : List CBlockIndex}
    {s : Status} (h : Trying orc n₀ g t m p n) (hb : Bound orc n₀ g t m)
    (hc : c ∈ n₀.setBlockIndexCandidates) (hlive : Live n c) (hpc : p ≤ c)
    (hnew : ∀ x ≤ c, Connects orc n₀ x → x ≤ p ∨ orc.connectBlock x = .connected)
    (hbad : ∀ b, FirstRefused orc n₀ c b → orc.connectBlock b = .invalid false)
    (hl : c.branch.drop (p.height + 1) = l) (hr : connectLoop orc old l n = (n', s)) :
    s = .ok ∧ ∃ p', Trying orc n₀ g t m p' n' ∧ p' ≤ c ∧
      (p' = c ∨ (old.all fun o => nChainWork o < nChainWork p') = true ∨ Blames n n' c) := by
  induction l generalizing n p with
  | nil =>
    cases hr
    refine ⟨rfl, p, h, hpc, Or.inl ?_⟩
    rw [List.drop_eq_nil_iff, Lineage.length_branch] at hl
    exact Lineage.eq_of_le_of_height hpc (by have := Lineage.height_mono hpc; omega)
  | cons b rest ih =>
    obtain ⟨x, rfl, hbc, hrest⟩ := drop_branch_eq_cons hpc hl
    have hnot : ¬Lineage.child p x ≤ p := fun hle => by
      have hheight := Lineage.height_mono hle
      rw [Lineage.height_child] at hheight
      omega
    by_cases hconn : Connects orc n₀ (.child p x)
    · have hv := (hnew _ hbc hconn).resolve_left hnot
      simp only [Chainstate.connectLoop, hv] at hr
      have hnext := h.connect hb hc hlive hbc hv
      have hlive' : Live (pruneBlockIndexCandidates (n.setTip (some (.child p x)))) c := hlive
      split at hr
      · next hmore =>
        cases hr
        exact ⟨rfl, _, hnext, hbc, Or.inr (Or.inl hmore)⟩
      · obtain ⟨hs, p', hp', hpc', hor⟩ := ih hnext hlive' hbc (fun y hy hyc =>
          (hnew y hy hyc).imp_left fun hyp => hyp.trans (Lineage.parent_le p x)) hrest.symm hr
        exact ⟨hs, p', hp', hpc', hor⟩
    · have hfirst : FirstRefused orc n₀ c (.child p x) :=
        ⟨hbc, hconn, fun y hy => (h.chain y ((Lineage.le_child.mp hy.le).resolve_left hy.ne)).1⟩
      have hv := hbad _ hfirst
      simp only [Chainstate.connectLoop, hv] at hr
      cases hr
      exact ⟨rfl, p, h.refuse hv hconn, hpc, Or.inr (Or.inr
        ⟨_, hbc, hlive.fFailedValid hbc, fFailedValid_invalidBlockFound n _⟩)⟩

theorem disconnectLoop_fork {f : CBlockIndex} {a : Activation}
    (hdisc : ∀ p x, orc.disconnectBlock (.child p x) = true) (hft : f ≤ t)
    (ht : a.node.tip = some t) :
    ∃ a', disconnectLoop orc (some f) t a = (a', .ok) ∧ a'.node = a.node.setTip (some f) := by
  induction t generalizing a with
  | root x =>
    obtain rfl := Lineage.le_root.mp hft
    exact ⟨a, by rw [disconnectLoop, if_pos rfl], (setTip_tip ht).symm⟩
  | child p x ih =>
    by_cases hf : f = .child p x
    · refine ⟨a, by rw [disconnectLoop, if_pos (by rw [hf])], ?_⟩
      rw [hf, setTip_tip ht]
    · have hfp : f ≤ p := (Lineage.le_child.mp hft).resolve_left hf
      obtain ⟨a', ha', hnode⟩ := ih (a := ⟨a.node.setTip (some p), .child p x :: a.disconnected⟩)
        hfp (Node.tip_setTip _ _)
      refine ⟨a', ?_, hnode⟩
      rw [disconnectLoop, if_neg fun he => hf (Option.some.inj he), if_pos (hdisc p x)]
      exact ha'

/-- One step towards the best candidate that is left. -/
theorem Trying.step {a a' : Activation} {s : Status} (h : Trying orc n₀ g t m t' a.node)
    (hb : Bound orc n₀ g t m) (hc : c ∈ a.node.setBlockIndexCandidates)
    (hlive : Live a.node c)
    (hmax : ∀ d ∈ a.node.setBlockIndexCandidates, n₀.rank d ≤ n₀.rank c)
    (hr : activateBestChainStep orc c a = (a', s)) :
    s = .ok ∧ Shrinks a.node a'.node ∧ ∃ p', Trying orc n₀ g t m p' a'.node ∧ p' ≤ c ∧
      (p' = c ∨ nChainWork t' < nChainWork p' ∨ Blames a.node a'.node c) := by
  have hc₀ := h.shrinks.candidates c hc
  have hlive₀ := hlive.of_shrinks h.shrinks
  obtain ⟨f, hf⟩ := CChain.exists_findFork h.tip h.genesis (hb.rooted c hc₀)
  obtain ⟨hft, hfc, hfork⟩ := CChain.findFork_eq_some h.tip hf
  obtain ⟨d, hd, hnode⟩ := disconnectLoop_fork (a := a) hb.disconnects hft h.tip
  simp only [activateBestChainStep, h.tip, hf, hd, toConnect] at hr
  generalize hconn : Chainstate.connectLoop orc (some t') _ d.node = e at hr
  obtain ⟨n', es⟩ := e
  cases hr
  have hoff := h.takeOff hb hc hlive hmax hft
    (hfork g h.genesis (hb.rooted c hc₀)) hfork
  rw [hnode] at hconn
  have hshrinks := (shrinks_setTip a.node (some f)).trans (connectLoop_spec hconn).1
  refine (hoff.connectLoop hb hc₀ hlive hfc ?_ ?_ rfl hconn).imp_right fun h => ⟨hshrinks, ?_⟩
  · intro x hx hor
    rcases hor with hxt | hxv
    · rcases hoff.back x ((contains_iff_of_tip hb.tip).mp hxt) with hxf | hxv | ⟨hxm, hle⟩
      · exact Or.inl hxf
      · exact Or.inr hxv
      · rcases h.eq_or_lt hb hc hmax with rfl | hlt
        · exact absurd hx hxm
        · exact absurd (hle c hc) (not_le_of_gt hlt)
    · exact Or.inr hxv
  · intro b hfirst
    rcases h.eq_or_lt hb hc hmax with rfl | hlt
    · exact absurd (hb.connects b hfirst.le) hfirst.refused
    · exact hb.refused c hc₀ hlive₀ hlt b hfirst
  · obtain ⟨p', hp', hpc, hor⟩ := h
    exact ⟨p', hp', hpc, hor.imp_right (Or.imp_left fun hmore => by simpa using hmore)⟩

/-! The rounds end. -/

/-- What is left to do: blocks that may still be called invalid, then blocks with more work. -/
def remaining (n₀ n : Node) (t' : CBlockIndex) : ℕ ×ₗ ℕ :=
  toLex (((under n₀).filter fun b => (n.entry b).fFailedValid = false).card,
    ((under n₀).filter fun b => nChainWork t' < nChainWork b).card)

theorem remaining_lt {p' : CBlockIndex} (hc : c ∈ n₀.setBlockIndexCandidates) (hpc : p' ≤ c)
    (hmono : ∀ b, (n.entry b).fFailedValid = true → (n'.entry b).fFailedValid = true)
    (h : nChainWork t' < nChainWork p' ∨ Blames n n' c) :
    remaining n₀ n' p' < remaining n₀ n t' := by
  have hsub : ((under n₀).filter fun b => (n'.entry b).fFailedValid = false) ⊆
      (under n₀).filter fun b => (n.entry b).fFailedValid = false := by
    intro b hb
    rw [Finset.mem_filter] at hb ⊢
    refine ⟨hb.1, ?_⟩
    cases hf : (n.entry b).fFailedValid with
    | false => rfl
    | true => rw [hmono b hf] at hb; exact hb.2
  rw [remaining, remaining, Prod.Lex.toLex_lt_toLex]
  rcases (Finset.card_le_card hsub).lt_or_eq with hlt | heq
  · exact Or.inl hlt
  · refine Or.inr ⟨heq, ?_⟩
    have hwork : nChainWork t' < nChainWork p' := by
      refine h.resolve_right ?_
      rintro ⟨b, hbc, hgood, hbad⟩
      have hb : b ∈ (under n₀).filter fun b => (n.entry b).fFailedValid = false :=
        Finset.mem_filter.mpr ⟨mem_under.mpr ⟨c, hc, hbc⟩, hgood⟩
      rw [← Finset.eq_of_subset_of_card_le hsub heq.ge, Finset.mem_filter, hbad] at hb
      exact absurd hb.2 (by simp)
    have hmore : ((under n₀).filter fun b => nChainWork p' < nChainWork b) ⊆
        (under n₀).filter fun b => nChainWork t' < nChainWork b :=
      Finset.monotone_filter_right _ fun b _ hb => hwork.trans hb
    refine Finset.card_lt_card ((Finset.ssubset_iff_of_subset hmore).mpr ⟨p', ?_, ?_⟩)
    · exact Finset.mem_filter.mpr ⟨mem_under.mpr ⟨c, hc, hpc⟩, hwork⟩
    · exact fun hp' => lt_irrefl _ (Finset.mem_filter.mp hp').2

theorem Trying.eq_of_connects (h : Trying orc n₀ g t m t' n) (hb : Bound orc n₀ g t m)
    (hc : c ∈ n.setBlockIndexCandidates) (hlive : Live n c)
    (hmax : ∀ d ∈ n.setBlockIndexCandidates, n₀.rank d ≤ n₀.rank c)
    (hconn : ChainConnects orc n₀ c) : c = m := by
  refine (h.eq_or_lt hb hc hmax).resolve_right (not_lt_of_ge ?_)
  exact hb.best c (h.shrinks.candidates c hc) (hlive.of_shrinks h.shrinks) c le_rfl hconn

/-- The rounds end at the best candidate that connects. -/
theorem Trying.activateLoop {a : Activation} (h : Trying orc n₀ g t m t' a.node)
    (hb : Bound orc n₀ g t m) :
    ∃ k a', activateLoop orc k a = (a', some .ok) ∧ Trying orc n₀ g t m m a'.node ∧
      ∀ d ∈ a'.node.setBlockIndexCandidates, n₀.rank d ≤ n₀.rank m := by
  generalize hμ : remaining n₀ a.node t' = μ
  induction μ using WellFoundedLT.induction generalizing a t' with
  | ind μ ih =>
    generalize hfind : findMostWorkChain a.node = r
    obtain ⟨n, o⟩ := r
    obtain ⟨hn, c, rfl, hc, hlive, hmax⟩ := h.findMostWork hb (Nat.lt_succ_self _) hfind
    by_cases htip : n.tip = some c
    · obtain rfl : t' = c := Option.some.inj (hn.tip.symm.trans htip)
      obtain rfl := hn.eq_of_connects hb hc hlive hmax fun x hx => (hn.chain x hx).1
      refine ⟨1, { a with node := n }, ?_, hn, hmax⟩
      simp only [Chainstate.activateLoop, hfind, htip, if_true]
    · generalize hstep : activateBestChainStep orc c { a with node := n } = e
      obtain ⟨a₂, s₂⟩ := e
      obtain ⟨rfl, hshrinks, p', hp', hpc, hor⟩ :=
        Trying.step (a := { a with node := n }) hn hb hc hlive hmax hstep
      by_cases hpc' : p' = c
      · obtain rfl := hpc'
        obtain rfl := hn.eq_of_connects hb hc hlive hmax fun x hx => (hp'.chain x hx).1
        refine ⟨1, a₂, ?_, hp', fun d hd => hmax d (hshrinks.candidates d hd)⟩
        simp only [Chainstate.activateLoop, hfind, if_neg htip, hstep, hp'.tip, if_true]
      · have hfind' : Marks orc a.node n := marks_findMostWorkLoop hfind
        have hmono := (hfind'.trans (marks_activateBestChainStep hstep)).failedValid
        have hlt : remaining n₀ a₂.node p' < μ := by
          rw [← hμ]
          refine remaining_lt (hn.shrinks.candidates c hc) hpc hmono ?_
          refine (hor.resolve_left hpc').imp_right ?_
          rintro ⟨b, hbc, hgood, hbad⟩
          refine ⟨b, hbc, ?_, hbad⟩
          cases hf : (a.node.entry b).fFailedValid with
          | false => rfl
          | true => exact (hfind'.failedValid b hf).symm.trans hgood
        obtain ⟨k, a', hk, hres⟩ := ih _ hlt hp' rfl
        refine ⟨k + 1, a', ?_, hres⟩
        have htip₂ : ¬a₂.node.tip = some c := fun heq =>
          hpc' (Option.some.inj (hp'.tip.symm.trans heq))
        simp only [Chainstate.activateLoop, hfind, if_neg htip, hstep, if_neg htip₂]
        exact hk

/-- Once `m` is the best candidate left, the better ones of the start have been turned down. -/
theorem Trying.recorded (h : Trying orc n₀ g t m t' n)
    (hmax : ∀ d ∈ n.setBlockIndexCandidates, n₀.rank d ≤ n₀.rank m)
    (hb : Bound orc n₀ g t m) (hc : c ∈ n₀.setBlockIndexCandidates) (hlive : Live n₀ c)
    (hlt : n₀.rank m < n₀.rank c) (hfirst : FirstRefused orc n₀ c b) :
    (n.entry b).fFailedValid = true := by
  have hbad : unusable n c = true := by
    by_contra husable
    exact not_le_of_gt hlt (hmax c (h.kept c hc (Bool.not_eq_true _ ▸ husable) hlt.le))
  rcases h.blamed c (failed_of_unusable hbad (h.data hb hc le_rfl)) with
    ⟨z, hz, hzbad⟩ | ⟨z, hz, hzbad⟩
  · rw [not_failed_of_usable (hlive z hz)] at hzbad
    cases hzbad
  · rw [hfirst.eq hz]
    exact hzbad

end Trying

theorem exists_best {orc : Blocks} {n : Node}
    (h : ∃ c ∈ n.setBlockIndexCandidates, Live n c ∧ ChainConnects orc n c) :
    ∃ m ∈ n.setBlockIndexCandidates, Live n m ∧ ChainConnects orc n m ∧
      ∀ d ∈ n.setBlockIndexCandidates, Live n d → ChainConnects orc n d →
        n.rank d ≤ n.rank m := by
  classical
  obtain ⟨c, hc, hlive, hconn⟩ := h
  obtain ⟨m, hm, hmax⟩ := Finset.exists_max_image
    (n.setBlockIndexCandidates.toFinset.filter fun d => Live n d ∧ ChainConnects orc n d) n.rank
    ⟨c, by simp [hc, hlive, hconn]⟩
  simp only [Finset.mem_filter, List.mem_toFinset] at hm hmax
  exact ⟨m, hm.1, hm.2.1, hm.2.2, fun d hd hl hcd => hmax d ⟨hd, hl, hcd⟩⟩

end Scrypta.Chainstate
