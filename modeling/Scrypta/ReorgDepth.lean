import Scrypta.AcceptBlock
import Scrypta.Toolkit.Runs

/-! How deep one activation can cut into the active chain. A header is measured by its own
height, while a reorganisation is measured from the fork, so a branch that grows together with
the active chain keeps passing the test. -/

namespace Scrypta.Chainstate

open Runs

/-- Every usable candidate other than the tip leaves the active chain at most `depth` blocks
below the tip. -/
def ShallowForks (depth : ℕ) (n : Node) : Prop :=
  ∀ t, n.tip = some t → ∀ c ∈ n.setBlockIndexCandidates, c ≠ t → UsablePath n c →
    ∃ f, n.chainActive.findFork c = some f ∧ t.height ≤ f.height + depth

/-- The blocks of the active chain of `n` that were disconnected. -/
def takenOff (n : Node) (disconnected : List CBlockIndex) : List CBlockIndex :=
  n.chainActive.vChain.filter (disconnected.contains ·)

/-- What holds in every state of an activation that started in `n` with the tip `t`: nothing
at or below `a` is touched, and the chain has no block that was unusable at the start. -/
structure Above (n : Node) (a t : CBlockIndex) (act : Activation) : Prop where
  tip : ∃ x, act.node.tip = some x ∧ a ≤ x ∧ ∀ b ≤ x, b ≤ t ∨ unusable n b = false
  shrinks : Shrinks n act.node
  log : ∀ b ∈ act.disconnected, a < b

variable {n : Node} {a t : CBlockIndex} {orc : Blocks}

theorem Above.step {act act' : Activation} {s : Status} {m : CBlockIndex}
    (hact : Above n a t act)
    (hcand : ∀ c ∈ n.setBlockIndexCandidates, (∀ x ≤ c, x ≤ t ∨ unusable n x = false) → a ≤ c)
    (hm : m ∈ act.node.setBlockIndexCandidates) (hpath : UsablePath act.node m)
    (h : activateBestChainStep orc m act = (act', s)) : Above n a t act' := by
  obtain ⟨x, hx, hax, hxt⟩ := hact.tip
  have hmt : ∀ b ≤ m, b ≤ t ∨ unusable n b = false := by
    intro b hb
    rcases hpath b hb with hc | hu
    · obtain ⟨x', hx', hbx⟩ := CChain.contains_iff.mp hc
      obtain rfl : x = x' := Option.some.inj (hx.symm.trans hx')
      exact hxt b hbx
    · exact Or.inr (hact.shrinks.usable hu)
  have ham : a ≤ m := hcand m (hact.shrinks.candidates m hm) hmt
  obtain ⟨f, hf⟩ := CChain.exists_findFork hx hax ham
  obtain ⟨hfx, hfm, hmax⟩ := CChain.findFork_eq_some hx hf
  have haf : a ≤ f := hmax a hax ham
  simp only [activateBestChainStep, hx, hf] at h
  generalize hdisc : disconnectLoop orc (some f) x act = d at h
  obtain ⟨d, ds⟩ := d
  obtain ⟨y, hnode, hfy, hyx, hok, hlog⟩ := disconnectLoop_spec hfx hx hdisc
  have hshrinks : Shrinks n d.node := hact.shrinks.trans (hnode ▸ shrinks_setTip _ _)
  have htip : d.node.tip = some y := by rw [hnode, Node.tip_setTip]
  have hlog' : ∀ b ∈ d.disconnected, a < b := by
    intro b hb
    rcases hlog b hb with hb | ⟨hfb, -⟩
    · exact hact.log b hb
    · exact lt_of_le_of_lt haf hfb
  -- the loop stopped early, or the chain now ends at the fork and blocks are connected
  have hstop : Above n a t d :=
    ⟨⟨y, htip, haf.trans hfy, fun b hb => hxt b (hb.trans hyx)⟩, hshrinks, hlog'⟩
  cases ds with
  | failed => cases h; exact hstop
  | noReturn => cases h; exact hstop
  | ok =>
    obtain rfl := hok rfl
    generalize hconn : connectLoop orc (some x) (toConnect (some y) m) d.node = e at h
    obtain ⟨n', es⟩ := e
    cases h
    obtain ⟨hcs, hor⟩ := connectLoop_spec hconn
    refine ⟨?_, hshrinks.trans hcs, hlog'⟩
    rcases hor with heq | ⟨b, hb, htb⟩
    · exact ⟨y, heq.trans htip, haf.trans hfy, fun b hb => hxt b (hb.trans hyx)⟩
    · obtain ⟨hyb, hbm⟩ := (mem_toConnect hfm).mp hb
      exact ⟨b, htb, haf.trans hyb.le, fun x hx => hmt x (hx.trans hbm)⟩

theorem Above.loop {k : ℕ} {act act' : Activation} {s : Option Status}
    (hact : Above n a t act)
    (hcand : ∀ c ∈ n.setBlockIndexCandidates, (∀ x ≤ c, x ≤ t ∨ unusable n x = false) → a ≤ c)
    (h : activateLoop orc k act = (act', s)) : Above n a t act' := by
  induction k generalizing act with
  | zero =>
    cases h
    exact hact
  | succ k ih =>
    simp only [activateLoop] at h
    generalize hfind : findMostWorkChain act.node = r at h
    obtain ⟨n', m⟩ := r
    obtain ⟨hchain, hshrinks, hr⟩ := findMostWorkLoop_spec hfind
    have hact' : Above n a t { act with node := n' } := by
      obtain ⟨x, hx, hax, hxt⟩ := hact.tip
      refine ⟨⟨x, ?_, hax, hxt⟩, hact.shrinks.trans hshrinks, hact.log⟩
      rw [← hx, Node.tip, Node.tip, hchain]
    cases m with
    | none =>
      cases h
      exact hact'
    | some m =>
      obtain ⟨hm, hpath⟩ := hr m rfl
      simp only at h
      split at h
      · cases h
        exact hact'
      · generalize hstep : activateBestChainStep orc m { act with node := n' } = e at h
        obtain ⟨act₂, s₂⟩ := e
        have hact₂ := hact'.step hcand hm hpath hstep
        cases s₂ with
        | ok =>
          simp only at h
          split at h
          · cases h
            exact hact₂
          · exact ih hact₂ h
        | failed => cases h; exact hact₂
        | noReturn => cases h; exact hact₂

/-- The blocks of a branch above a height. -/
theorem length_filter_branch_le {t : CBlockIndex} {p : CBlockIndex → Bool} {h : ℕ}
    (hp : ∀ b ≤ t, p b = true → h < b.height) : (t.branch.filter p).length ≤ t.height - h := by
  have htake : (t.branch.take (h + 1)).filter p = [] := by
    refine List.filter_eq_nil_iff.mpr fun b hb hpb => ?_
    obtain ⟨k, hk⟩ := List.mem_iff_getElem?.mp hb
    rw [List.getElem?_take] at hk
    split at hk
    · next hkh =>
      obtain ⟨hbt, hheight⟩ := Lineage.getElem?_branch.mp hk
      have := hp b hbt hpb
      omega
    · cases hk
  have hsplit := congrArg (List.filter p) (List.take_append_drop (h + 1) t.branch)
  rw [List.filter_append, htake, List.nil_append] at hsplit
  rw [← hsplit]
  refine (List.length_filter_le _ _).trans ?_
  rw [List.length_drop, Lineage.length_branch]
  omega

/-- An activation from a state with shallow forks takes off at most `depth` blocks. -/
theorem takenOff_activateBestChain {n : Node} {depth : ℕ} (hn : ShallowForks depth n)
    (orc : Blocks) (rounds : ℕ) :
    (takenOff n (activateBestChain orc rounds n).1.disconnected).length ≤ depth := by
  cases ht : n.tip with
  | none =>
    have hempty : n.chainActive.vChain = [] := by
      rw [n.chainActive.eq_setTip, show n.chainActive.tip = none from ht]
      rfl
    simp [takenOff, hempty]
  | some t =>
    have hchain : n.chainActive.vChain = t.branch := by
      rw [n.chainActive.eq_setTip, show n.chainActive.tip = some t from ht]
      rfl
    have hlen : t.height - depth < t.branch.length := by
      rw [Lineage.length_branch]
      omega
    obtain ⟨hat, hheight⟩ := Lineage.getElem?_branch.mp (List.getElem?_eq_getElem hlen)
    generalize t.branch[t.height - depth] = a at hat hheight
    have hcand : ∀ c ∈ n.setBlockIndexCandidates,
        (∀ x ≤ c, x ≤ t ∨ unusable n x = false) → a ≤ c := by
      intro c hc hpath
      by_cases hct : c = t
      · exact hct ▸ hat
      · have husable : UsablePath n c := fun x hx =>
          (hpath x hx).imp_left fun hxt => CChain.contains_iff.mpr ⟨t, ht, hxt⟩
        obtain ⟨f, hf, hdeep⟩ := hn t ht c hc hct husable
        obtain ⟨hft, hfc, -⟩ := CChain.findFork_eq_some ht hf
        exact (Lineage.le_of_height_le hat hft (by omega)).trans hfc
    have hstart : Above n a t ⟨n, []⟩ :=
      ⟨⟨t, ht, hat, fun b hb => Or.inl hb⟩, Shrinks.refl n, nofun⟩
    have hend := hstart.loop (k := rounds) hcand (show activateBestChain orc rounds n = _ from rfl)
    rw [takenOff, hchain]
    refine (length_filter_branch_le (h := a.height) fun b _ hb => ?_).trans (by omega)
    have hmem : b ∈ (activateBestChain orc rounds n).1.disconnected := by simpa using hb
    exact Lineage.height_lt (hend.log b hmem)

section Runs

variable (par : Kernel.Params) (cp : ChainParams)

/-- If the arriving block is admitted, all forks of usable candidates are shallow. -/
def ShallowArrival (n : Node) (e : Arrival) : Prop :=
  (acceptBlock par cp e.checks n e.block).2 = true →
    ShallowForks cp.nMaxReorganizationDepth (acceptBlock par cp e.checks n e.block).1

/-- The arrival takes at most the allowed number of blocks off the active chain. -/
def BoundedReorg (n : Node) (e : Arrival) : Prop :=
  (takenOff n (processNewBlock par cp n e).disconnected).length ≤ cp.nMaxReorganizationDepth

variable {par cp}

theorem boundedReorg_of_shallowArrival {n : Node} {e : Arrival} (h : ShallowArrival par cp n e) :
    BoundedReorg par cp n e := by
  have hchain := acceptBlock_chainActive par cp e.checks n e.block
  unfold ShallowArrival at h
  unfold BoundedReorg processNewBlock
  generalize acceptBlock par cp e.checks n e.block = r at h hchain
  obtain ⟨n', b⟩ := r
  cases b with
  | false => simp [takenOff]
  | true =>
    have := takenOff_activateBestChain (h rfl) e.blocks e.rounds
    rw [takenOff, hchain] at this
    exact this

/-- In every run whose arrivals leave only shallow forks, no activation takes off more than
`MaxReorganizationDepth` blocks of the active chain. -/
theorem reorganisations_bounded {n : Node} {es : List Arrival}
    (h : Meets (step par cp) (ShallowArrival par cp) n es) :
    Meets (step par cp) (BoundedReorg par cp) n es :=
  h.mono fun _ _ => boundedReorg_of_shallowArrival

end Runs

end Scrypta.Chainstate
