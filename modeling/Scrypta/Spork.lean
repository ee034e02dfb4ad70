import Scrypta.Primitives
import Scrypta.Toolkit.Dict

/-! Network switches. A spork is on once its value, read as a time, has passed. -/

namespace Scrypta.Spork

def spork2SwiftTx : ℤ := 10001
def spork3SwiftTxBlockFiltering : ℤ := 10002
def spork5MaxValue : ℤ := 10004
def spork7MasternodeScanning : ℤ := 10006
def spork8MasternodePaymentEnforcement : ℤ := 10007
def spork9MasternodeBudgetEnforcement : ℤ := 10008
def spork10MasternodePayUpdatedNodes : ℤ := 10009
def spork11ResetBudget : ℤ := 10010
def spork12ReconsiderBlocks : ℤ := 10011
def spork13EnableSuperblocks : ℤ := 10012
def spork14NewProtocolEnforcement : ℤ := 10013
def spork15NewProtocolEnforcement2 : ℤ := 10014
def spork16MnWinnerMinimumAge : ℤ := 10015
def spork17BlockRecipientEnforcement : ℤ := 10016

structure CSporkMessage where
  vchSig : Bytes
  nSporkID : ℤ
  nValue : ℤ
  nTimeSigned : ℤ
  deriving DecidableEq, Repr

/-- The sporks a node has received and its clock. -/
structure Sporks where
  mapSporksActive : Dict ℤ CSporkMessage
  now : ℤ

def off : ℤ := 4070908800

/-- The value of a spork nobody has sent; `-1` for an unknown one. -/
def defaultValue (nSporkID : ℤ) : ℤ :=
  if nSporkID = spork2SwiftTx then 978307200
  else if nSporkID = spork3SwiftTxBlockFiltering then 1424217600
  else if nSporkID = spork5MaxValue then 1000
  else if nSporkID = spork7MasternodeScanning then 978307200
  else if nSporkID = spork8MasternodePaymentEnforcement then off
  else if nSporkID = spork9MasternodeBudgetEnforcement then off
  else if nSporkID = spork10MasternodePayUpdatedNodes then off
  else if nSporkID = spork11ResetBudget then 0
  else if nSporkID = spork12ReconsiderBlocks then 0
  else if nSporkID = spork13EnableSuperblocks then off
  else if nSporkID = spork14NewProtocolEnforcement then off
  else if nSporkID = spork15NewProtocolEnforcement2 then off
  else if nSporkID = spork16MnWinnerMinimumAge then 8000
  else if nSporkID = spork17BlockRecipientEnforcement then off
  else -1

def getSporkValue (s : Sporks) (nSporkID : ℤ) : ℤ :=
  match s.mapSporksActive.find nSporkID with
  | some spork => spork.nValue
  | none => defaultValue nSporkID

def isSporkActive (s : Sporks) (nSporkID : ℤ) : Bool :=
  let r := getSporkValue s nSporkID
  decide ((if r = -1 then off else r) < s.now)

def minPeerProtoVersionBeforeEnforcement : ℤ := 70920
def minPeerProtoVersionAfterEnforcement : ℤ := 70922
def blockRecipientEnforcement : ℤ := 70922

/-- `ActiveProtocol` with a bound on the depth of its calls; `none` when they run out. -/
def activeProtocolWithin (s : Sporks) : ℕ → Option ℤ
  | 0 => none
  | depth + 1 =>
    if isSporkActive s spork15NewProtocolEnforcement2 then
      (activeProtocolWithin s depth).map fun p =>
        if blockRecipientEnforcement ≤ p then minPeerProtoVersionAfterEnforcement
        else minPeerProtoVersionBeforeEnforcement
    else some minPeerProtoVersionBeforeEnforcement

/-- `none` when `ActiveProtocol` does not return. -/
def activeProtocol (s : Sporks) : Option ℤ :=
  if isSporkActive s spork15NewProtocolEnforcement2 then none
  else some minPeerProtoVersionBeforeEnforcement

/-- No depth of the call stack makes a difference. -/
theorem activeProtocolWithin_succ (s : Sporks) (depth : ℕ) :
    activeProtocolWithin s (depth + 1) = activeProtocol s := by
  by_cases h : isSporkActive s spork15NewProtocolEnforcement2 = true
  · have hnone : ∀ d, activeProtocolWithin s d = none := by
      intro d
      induction d with
      | zero => rfl
      | succ d ih => rw [activeProtocolWithin, if_pos h, ih]; rfl
    rw [hnone, activeProtocol, if_pos h]
  · rw [activeProtocolWithin, if_neg h, activeProtocol, if_neg h]

theorem activeProtocol_some {s : Sporks} {p : ℤ} (h : activeProtocol s = some p) :
    p = minPeerProtoVersionBeforeEnforcement := by
  unfold activeProtocol at h
  split at h
  · cases h
  · exact (Option.some.inj h).symm

end Scrypta.Spork
