import Scrypta.SporkMessages
import Scrypta.Toolkit.Decimal
import Mathlib.Algebra.Order.Ring.Int
import Mathlib.Tactic.Positivity

/-! A spork is signed as the text of its id, its value and its time, one after the other. The text
can be split again in other places. -/

namespace Scrypta.Spork

open Runs

/-- The sporks that are signed by the same text. -/
def Content.readings (c : Content) : List Content :=
  ((Decimal.readThree c.strMessage.toList).map fun (id, value, time) => ⟨id, value, time⟩).filter
    fun c' : Content => c'.InRange

theorem Content.mem_readings {c c' : Content} :
    c' ∈ c.readings ↔ c'.strMessage = c.strMessage ∧ c'.InRange := by
  have htext : (c'.nSporkID, c'.nValue, c'.nTimeSigned) ∈ Decimal.readThree c.strMessage.toList ↔
      c'.strMessage = c.strMessage := by
    rw [Decimal.mem_readThree, ← String.toList_inj]
    simp only [Content.strMessage, String.toList_append]
  rw [← htext, Content.readings, List.mem_filter, List.mem_map]
  constructor
  · intro h
    obtain ⟨⟨⟨id, value, time⟩, hmem, rfl⟩, hrange⟩ := h
    exact ⟨hmem, of_decide_eq_true hrange⟩
  · intro h
    exact ⟨⟨_, h.1, rfl⟩, decide_eq_true h.2⟩

/-- A signature verifies for a text exactly when it is the text of a signed spork. -/
def Ideal (orc : Oracles) (signed : Set Content) : Prop :=
  ∀ text, (∃ sig, orc.verifyMessage sig text = true) ↔ ∃ c ∈ signed, c.strMessage = text

/-- The fields are those of the wire. -/
def Message.WellTyped : Message → Prop
  | .spork m => m.content.InRange
  | .getsporks => True

/-- Whatever peers send to a new node, the sporks that it comes to hold are in the set. -/
def OnlyHolds (orc : Oracles) (sporks : Set Content) : Prop :=
  ∀ ds : List (Env × Message), (∀ d ∈ ds, d.2.WellTyped) → ∀ id m,
    (run (step orc) .init ds).mapSporksActive.find id = some m → m.content ∈ sporks

/-- A spork that is held was read from the text of a signed one. -/
theorem step_holds {orc : Oracles} {signed : Set Content} (hideal : Ideal orc signed) {s : State}
    {d : Env × Message} (hd : d.2.WellTyped)
    (hs : ∀ id m, s.mapSporksActive.find id = some m → ∃ c ∈ signed, m.content ∈ c.readings)
    (id : ℤ) (m : CSporkMessage) (hm : (step orc s d).mapSporksActive.find id = some m) :
    ∃ c ∈ signed, m.content ∈ c.readings := by
  obtain ⟨env, message⟩ := d
  cases message with
  | getsporks =>
    rw [step_getsporks] at hm
    exact hs id m hm
  | spork m' =>
    rw [step_spork] at hm
    split at hm
    · next htakes =>
      rw [find_put] at hm
      split at hm
      · obtain rfl : m' = m := Option.some.inj hm
        obtain ⟨c, hc, htext⟩ := (hideal _).mp ⟨_, (takes_iff.mp htakes).2.2⟩
        exact ⟨c, hc, Content.mem_readings.mpr ⟨htext.symm, hd⟩⟩
      · exact hs id m hm
    · exact hs id m hm

theorem run_holds {orc : Oracles} {signed : Set Content} (hideal : Ideal orc signed)
    {ds : List (Env × Message)} (hds : ∀ d ∈ ds, d.2.WellTyped) {s : State}
    (hs : ∀ id m, s.mapSporksActive.find id = some m → ∃ c ∈ signed, m.content ∈ c.readings)
    (id : ℤ) (m : CSporkMessage)
    (hm : (run (step orc) s ds).mapSporksActive.find id = some m) :
    ∃ c ∈ signed, m.content ∈ c.readings := by
  induction ds generalizing s with
  | nil => exact hs id m hm
  | cons d ds ih =>
    exact ih (fun e he => hds e (List.mem_cons_of_mem d he))
      (step_holds hideal (hds d List.mem_cons_self) hs) hm

/-- A signature that verifies is enough for a new node. -/
theorem run_single {orc : Oracles} {m : CSporkMessage} (h : m.checkSignature orc = true) :
    (run (step orc) .init [(⟨false, true⟩, .spork m)]).mapSporksActive.find m.nSporkID =
      some m := by
  have htakes : takes orc ⟨false, true⟩ .init m = true :=
    takes_iff.mpr ⟨rfl, by rw [seen, State.init, Dict.find_empty], h⟩
  rw [run_cons, run_nil, step_spork, if_pos htakes, find_put, if_pos rfl]

/-- Only signed sporks are ever held exactly when every reading of the text of a signed spork is
signed as well. -/
theorem only_signed_sporks_iff (orc : Oracles) (signed : Set Content) (hideal : Ideal orc signed) :
    OnlyHolds orc signed ↔ ∀ c ∈ signed, ∀ c' ∈ c.readings, c' ∈ signed := by
  constructor
  · intro hall c hc c' hc'
    obtain ⟨htext, hrange⟩ := Content.mem_readings.mp hc'
    obtain ⟨sig, hsig⟩ := (hideal c.strMessage).mpr ⟨c, hc, rfl⟩
    have hcheck : (CSporkMessage.mk sig c'.nSporkID c'.nValue c'.nTimeSigned).checkSignature orc =
        true := by
      rw [← htext] at hsig
      exact hsig
    refine hall _ (fun d hd => ?_) _ _ (run_single hcheck)
    rw [List.mem_singleton.mp hd]
    exact hrange
  · intro hclosed ds hds id m hm
    have hinit : ∀ id m, State.init.mapSporksActive.find id = some m →
        ∃ c ∈ signed, m.content ∈ c.readings := by
      intro id m h
      rw [State.init, Dict.find_empty] at h
      cases h
    obtain ⟨c, hc, hread⟩ := run_holds hideal hds hinit id m hm
    exact hclosed c hc _ hread

section Runs

/-- The superblocks are switched off from 2017 on. -/
def publishedSpork : Content := ⟨spork13EnableSuperblocks, 1483228800, 1483228700⟩

/-- The same digits: the superblocks were switched on in 1970, and no later spork is newer. -/
def resplitSpork : Content := ⟨spork13EnableSuperblocks, 1, 4832288001483228700⟩

/-- The holder of the key has signed the published spork and nothing else. -/
def sampleOracles : Oracles where
  verifyMessage sig text := sig == [1] && text == publishedSpork.strMessage
  hashQuark bytes := BitVec.ofNat 256 (LittleEndian.decode bytes)
  padding := [0, 0, 0, 0]

theorem sampleOracles_ideal : Ideal sampleOracles {publishedSpork} := by
  intro text
  constructor
  · intro h
    obtain ⟨sig, hsig⟩ := h
    simp only [sampleOracles, Bool.and_eq_true, beq_iff_eq] at hsig
    exact ⟨publishedSpork, rfl, hsig.2.symm⟩
  · intro h
    obtain ⟨c, rfl, rfl⟩ := h
    exact ⟨[1], by simp [sampleOracles]⟩

/-- A node that receives the other reading first holds it, and keeps it when the published spork
arrives. -/
theorem resplit_spork_is_accepted :
    Ideal sampleOracles {publishedSpork} ∧ publishedSpork.InRange ∧ resplitSpork.InRange ∧
      resplitSpork ∉ ({publishedSpork} : Set Content) ∧
      ((run (step sampleOracles) .init
        [(⟨false, true⟩, .spork ⟨[1], spork13EnableSuperblocks, 1, 4832288001483228700⟩),
          (⟨false, true⟩, .spork ⟨[1], spork13EnableSuperblocks, 1483228800, 1483228700⟩)]
        ).mapSporksActive.find spork13EnableSuperblocks).map CSporkMessage.content =
          some resplitSpork :=
  ⟨sampleOracles_ideal, by decide, by decide,
    fun h => absurd (Set.mem_singleton_iff.mp h) (by decide), by decide⟩

theorem only_signed_sporks_iff_sample :
    ¬OnlyHolds sampleOracles {publishedSpork} := by
  rw [only_signed_sporks_iff sampleOracles {publishedSpork} sampleOracles_ideal]
  intro h
  have hread : resplitSpork ∈ publishedSpork.readings :=
    Content.mem_readings.mpr ⟨by decide, by decide⟩
  exact absurd (Set.mem_singleton_iff.mp (h publishedSpork rfl resplitSpork hread)) (by decide)

end Runs

end Scrypta.Spork
