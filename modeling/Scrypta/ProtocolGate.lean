import Scrypta.ConnectBlock

/-! Where the protocol version is asked for: the version handshake, the masternode list, and the
connection of a block. None of them returns when `ActiveProtocol` does not. -/

namespace Scrypta.ProtocolGate

open Spork Validation

structure CNode where
  nVersion : ℤ
  fDisconnect : Bool
  deriving DecidableEq, Repr

structure CMasternode where
  protocolVersion : ℤ
  sigTime : ℤ
  /-- `IsEnabled` after `Check` -/
  isEnabled : Bool
  deriving DecidableEq, Repr

section Callers

variable (s : Sporks)

/-- `DisconnectOldProtocol`, with the text of the `reject` message it sends. The text asks for
the protocol version once more. -/
def disconnectOldProtocol (pfrom : CNode) (nVersionRequired : ℤ) :
    Option (CNode × Option String) :=
  if pfrom.nVersion < nVersionRequired then
    (activeProtocol s).map fun p =>
      ({ pfrom with fDisconnect := true }, some s!"Version must be {p} or greater")
  else some ({ pfrom with fDisconnect := false }, none)

/-- The check of a `version` message: the peer is old, or the handshake goes on. -/
def receiveVersion (pfrom : CNode) : Option (CNode × Option String) :=
  (activeProtocol s).bind (disconnectOldProtocol s pfrom)

def getMinMasternodePaymentsProto : Option ℤ :=
  if isSporkActive s spork10MasternodePayUpdatedNodes then activeProtocol s
  else some minPeerProtoVersionBeforeEnforcement

def countEnabled (vMasternodes : List CMasternode) (protocolVersion : ℤ) : Option ℕ :=
  (if protocolVersion = -1 then getMinMasternodePaymentsProto s else some protocolVersion).map
    fun p => vMasternodes.countP fun mn => decide (p ≤ mn.protocolVersion) && mn.isEnabled

/-- The masternodes that are old enough to win a payment. -/
def stableSize (adjustedTime : ℤ) (vMasternodes : List CMasternode) : Option ℕ :=
  (activeProtocol s).map fun nMinProtocol =>
    vMasternodes.countP fun mn =>
      decide (nMinProtocol ≤ mn.protocolVersion) &&
        !(isSporkActive s spork8MasternodePaymentEnforcement &&
          decide (adjustedTime - mn.sigTime < getSporkValue s spork16MnWinnerMinimumAge)) &&
        mn.isEnabled

end Callers

/-- `ActiveProtocol` returns within some depth of calls, and so does everything that asks it. -/
structure Terminates (s : Sporks) : Prop where
  activeProtocol : ∃ depth p, activeProtocolWithin s depth = some p
  handshake : ∀ pfrom, receiveVersion s pfrom ≠ none
  countEnabled : ∀ vMasternodes protocolVersion,
    ProtocolGate.countEnabled s vMasternodes protocolVersion ≠ none
  stableSize : ∀ adjustedTime vMasternodes,
    ProtocolGate.stableSize s adjustedTime vMasternodes ≠ none
  budgetPaymentBlock : ∀ man : Budget.Manager, man.sporks = s → ∀ nBlockHeight,
    Budget.isBudgetPaymentBlock man nBlockHeight ≠ none
  blockValue : ∀ env : Env, env.sporks = s → ∀ block nExpectedValue nMinted,
    isBlockValueValid env block nExpectedValue nMinted ≠ none
  recipients : ∀ env : Env, env.sporks = s → ∀ block nHeight nExpectedMint,
    enforceRecipients env block nHeight nExpectedMint ≠ .error .noReturn

variable {s : Sporks}

theorem exists_activeProtocolWithin :
    (∃ depth p, activeProtocolWithin s depth = some p) ↔ ∃ p, activeProtocol s = some p := by
  constructor
  · rintro ⟨depth, p, h⟩
    cases depth with
    | zero => cases h
    | succ depth => exact ⟨p, by rw [← activeProtocolWithin_succ s depth, h]⟩
  · rintro ⟨p, h⟩
    exact ⟨1, p, by rw [activeProtocolWithin_succ, h]⟩

theorem isSporkActive_eq_false_iff {nSporkID : ℤ} :
    isSporkActive s nSporkID = false ↔
      s.now ≤ if getSporkValue s nSporkID = -1 then off else getSporkValue s nSporkID := by
  simp only [isSporkActive, decide_eq_false_iff_not, Int.not_lt]

theorem activeProtocol_eq_some (h : isSporkActive s spork15NewProtocolEnforcement2 = false) :
    activeProtocol s = some minPeerProtoVersionBeforeEnforcement := by
  rw [activeProtocol, h]
  rfl

theorem receiveVersion_ne_none {p : ℤ} (h : activeProtocol s = some p) (pfrom : CNode) :
    receiveVersion s pfrom ≠ none := by
  rw [receiveVersion, h, Option.bind_some, disconnectOldProtocol]
  split
  · rw [h]
    exact Option.some_ne_none _
  · exact Option.some_ne_none _

theorem countEnabled_ne_none {p : ℤ} (h : activeProtocol s = some p)
    (vMasternodes : List CMasternode) (protocolVersion : ℤ) :
    countEnabled s vMasternodes protocolVersion ≠ none := by
  rw [countEnabled, getMinMasternodePaymentsProto, h]
  split
  · split <;> exact Option.some_ne_none _
  · exact Option.some_ne_none _

theorem isBudgetPaymentBlock_ne_none {man : Budget.Manager} {p : ℤ}
    (h : activeProtocol man.sporks = some p) (nBlockHeight : ℤ) :
    Budget.isBudgetPaymentBlock man nBlockHeight ≠ none := by
  rw [Budget.isBudgetPaymentBlock, h]
  exact Option.some_ne_none _

theorem isBlockValueValid_ne_none {env : Env} {p : ℤ} (h : activeProtocol env.sporks = some p)
    (block : CBlock) (nExpectedValue nMinted : CAmount) :
    isBlockValueValid env block nExpectedValue nMinted ≠ none := by
  have hbudget : ∀ nHeight, Budget.isBudgetPaymentBlock env.budget nHeight ≠ none :=
    isBudgetPaymentBlock_ne_none h
  rw [isBlockValueValid]
  split
  · exact Option.some_ne_none _
  · split
    · exact Option.some_ne_none _
    · split
      · exact Option.some_ne_none _
      · simpa only [ne_eq, Option.map_eq_none_iff] using hbudget _

theorem bind_ne_noReturn {α β : Type} {x : Except Refusal α} {f : α → Except Refusal β}
    (hx : x ≠ .error .noReturn) (hf : ∀ a, f a ≠ .error .noReturn) :
    x >>= f ≠ .error .noReturn := by
  cases x with
  | error r => exact fun h => hx (congrArg Except.error (Except.error.inj h))
  | ok a => exact hf a

theorem present_ne_noReturn {α : Type} (x : Option α) : present x ≠ .error .noReturn := by
  cases x with
  | none => exact fun h => nomatch h
  | some a => exact fun h => nomatch h

theorem checkRecipients_ne_noReturn (env : Env) (block : CBlock) (nHeight : ℤ)
    (nExpectedMint : CAmount) :
    checkRecipients env block nHeight nExpectedMint ≠ .error .noReturn := by
  refine bind_ne_noReturn (present_ne_noReturn _) fun staker => ?_
  dsimp only
  by_cases hsize : staker.vout.length - (if block.nNonce = 0 then 1 else 0) = 1
  · rw [if_pos hsize]
    exact fun h => nomatch h
  · rw [if_neg hsize]
    refine bind_ne_noReturn (present_ne_noReturn _) fun coinstake => ?_
    refine bind_ne_noReturn (present_ne_noReturn _) fun mnOut => ?_
    split
    · exact fun h => nomatch h
    · exact fun h => nomatch h

theorem enforceRecipients_ne_noReturn {env : Env} {p : ℤ}
    (h : activeProtocol env.sporks = some p) (block : CBlock) (nHeight : ℤ)
    (nExpectedMint : CAmount) :
    enforceRecipients env block nHeight nExpectedMint ≠ .error .noReturn := by
  rw [enforceRecipients, h]
  split
  · change (if blockRecipientEnforcement ≤ p then checkRecipients env block nHeight nExpectedMint
      else .ok ()) ≠ .error .noReturn
    split
    · exact checkRecipients_ne_noReturn env block nHeight nExpectedMint
    · exact fun hok => nomatch hok
  · exact fun hok => nomatch hok

/-- The protocol gate terminates exactly while `SPORK_15` lies in the future. -/
theorem terminates_iff (s : Sporks) :
    Terminates s ↔
      s.now ≤ if getSporkValue s spork15NewProtocolEnforcement2 = -1 then off
        else getSporkValue s spork15NewProtocolEnforcement2 := by
  rw [← isSporkActive_eq_false_iff]
  constructor
  · intro h
    obtain ⟨p, hp⟩ := exists_activeProtocolWithin.mp h.activeProtocol
    by_contra hactive
    rw [activeProtocol, if_pos (by simpa using hactive)] at hp
    cases hp
  · intro h
    have hp := activeProtocol_eq_some h
    exact {
      activeProtocol := exists_activeProtocolWithin.mpr ⟨_, hp⟩
      handshake := receiveVersion_ne_none hp
      countEnabled := countEnabled_ne_none hp
      stableSize := fun _ _ => by rw [ProtocolGate.stableSize, hp]; exact Option.some_ne_none _
      budgetPaymentBlock := fun man hman => isBudgetPaymentBlock_ne_none (hman ▸ hp)
      blockValue := fun env henv => isBlockValueValid_ne_none (henv ▸ hp)
      recipients := fun env henv => enforceRecipients_ne_noReturn (henv ▸ hp) }

/-- A spork message of the key holder that turns `SPORK_15` on at the start of 2017. -/
def sampleSpork : CSporkMessage := ⟨[], spork15NewProtocolEnforcement2, 1483228800, 1483228700⟩

/-- Once `SPORK_15` is on, no depth of the stack is enough. -/
theorem gate_never_opens :
    ¬Terminates ⟨Dict.empty.set spork15NewProtocolEnforcement2 sampleSpork, 1483228801⟩ := by
  intro h
  obtain ⟨p, hp⟩ := exists_activeProtocolWithin.mp h.activeProtocol
  have hnone : activeProtocol
      ⟨Dict.empty.set spork15NewProtocolEnforcement2 sampleSpork, 1483228801⟩ = none := by decide
  rw [hnone] at hp
  cases hp

end Scrypta.ProtocolGate
