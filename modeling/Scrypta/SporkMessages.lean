import Scrypta.Spork
import Scrypta.Toolkit.LittleEndian
import Scrypta.Toolkit.Runs

/-! How a node comes by its sporks: the messages of its peers, and the updates that the holder of
the spork key makes on its own node. -/

namespace Scrypta.Spork

open Runs

/-- Code outside of the sporks: the check of a signature against `Params().SporkKey()`, the hash,
and what the compiler leaves between `nSporkID` and `nValue`. -/
structure Oracles where
  verifyMessage : Bytes → String → Bool
  hashQuark : Bytes → Uint256
  padding : Bytes

/-- `strMasterPrivKey` as `SetKey`, `SignMessage` and `VerifyMessage` see it. -/
structure MasterKey where
  signMessage : String → Option Bytes
  verifyMessage : Bytes → String → Bool

/-- The three numbers of a spork. -/
structure Content where
  nSporkID : ℤ
  nValue : ℤ
  nTimeSigned : ℤ
  deriving DecidableEq, Repr

/-- The numbers are an `int` and two `int64_t`. -/
def Content.InRange (c : Content) : Prop :=
  toInt32 c.nSporkID = c.nSporkID ∧ toInt64 c.nValue = c.nValue ∧
    toInt64 c.nTimeSigned = c.nTimeSigned

instance (c : Content) : Decidable c.InRange := inferInstanceAs (Decidable (_ ∧ _ ∧ _))

/-- The text that is signed. -/
def Content.strMessage (c : Content) : String :=
  toString c.nSporkID ++ toString c.nValue ++ toString c.nTimeSigned

namespace CSporkMessage

def content (m : CSporkMessage) : Content := ⟨m.nSporkID, m.nValue, m.nTimeSigned⟩

/-- The hash of the memory from `nSporkID` to `nTimeSigned`. -/
def getHash (orc : Oracles) (m : CSporkMessage) : Uint256 :=
  orc.hashQuark (LittleEndian.encode 4 (m.nSporkID % 2 ^ 32).toNat ++ orc.padding ++
    LittleEndian.encode 8 (m.nValue % 2 ^ 64).toNat ++
    LittleEndian.encode 8 (m.nTimeSigned % 2 ^ 64).toNat)

def checkSignature (orc : Oracles) (m : CSporkMessage) : Bool :=
  orc.verifyMessage m.vchSig m.content.strMessage

def sign (key : MasterKey) (m : CSporkMessage) : Option CSporkMessage :=
  match key.signMessage m.content.strMessage with
  | none => none
  | some vchSig =>
    if key.verifyMessage vchSig m.content.strMessage then some { m with vchSig := vchSig } else none

end CSporkMessage

/-- `mapSporks` and `mapSporksActive`. -/
structure State where
  mapSporks : Dict Uint256 CSporkMessage
  mapSporksActive : Dict ℤ CSporkMessage

def State.init : State := ⟨.empty, .empty⟩

/-- What a node looks at when a message arrives. -/
structure Env where
  fLiteMode : Bool
  hasTip : Bool

/-- Sporks are read. -/
def Env.handles (env : Env) : Bool := !env.fLiteMode && env.hasTip

inductive Effect where
  | misbehaving (howmuch : ℤ)
  | relay (hash : Uint256)
  | pushSpork (m : CSporkMessage)
  | clearBudget
  | reprocessBlocks (nBlocks : ℤ)
  deriving DecidableEq, Repr

/-- The value arrives as an `int`. -/
def executeSpork (nSporkID nValue : ℤ) : List Effect :=
  let nValue := toInt32 nValue
  (if nSporkID = spork11ResetBudget ∧ nValue = 1 then [Effect.clearBudget] else []) ++
    if nSporkID = spork12ReconsiderBlocks ∧ 0 < nValue then [Effect.reprocessBlocks nValue] else []

inductive Message where
  | spork (m : CSporkMessage)
  | getsporks

/-- The active spork with this id is as new as the message. -/
def seen (s : State) (m : CSporkMessage) : Bool :=
  match s.mapSporksActive.find m.nSporkID with
  | some active => decide (m.nTimeSigned ≤ active.nTimeSigned)
  | none => false

def State.put (orc : Oracles) (s : State) (m : CSporkMessage) : State :=
  ⟨s.mapSporks.set (m.getHash orc) m, s.mapSporksActive.set m.nSporkID m⟩

def processSpork (orc : Oracles) (env : Env) (s : State) : Message → State × List Effect
  | .spork m =>
    if env.fLiteMode then (s, [])
    else if !env.hasTip then (s, [])
    else if seen s m then (s, [])
    else if !m.checkSignature orc then (s, [.misbehaving 100])
    else (s.put orc m, .relay (m.getHash orc) :: executeSpork m.nSporkID m.nValue)
  | .getsporks =>
    if env.fLiteMode then (s, [])
    else (s, s.mapSporksActive.toList.map fun e => .pushSpork e.2)

/-- `UpdateSpork`, which asks nothing of the spork that it replaces. -/
def updateSpork (orc : Oracles) (key : MasterKey) (now : ℤ) (s : State) (nSporkID nValue : ℤ) :
    Option (State × List Effect) :=
  match CSporkMessage.sign key ⟨[], nSporkID, nValue, now⟩ with
  | none => none
  | some m => some (s.put orc m, [.relay (m.getHash orc)])

/-- The messages that reach a node, each with what the node looks at. -/
def step (orc : Oracles) (s : State) (d : Env × Message) : State := (processSpork orc d.1 s d.2).1

section Steps

variable {orc : Oracles} {env : Env} {s : State}

/-- The message is taken. -/
def takes (orc : Oracles) (env : Env) (s : State) (m : CSporkMessage) : Bool :=
  env.handles && !seen s m && m.checkSignature orc

theorem step_spork (m : CSporkMessage) :
    step orc s (env, .spork m) = if takes orc env s m then s.put orc m else s := by
  cases hlite : env.fLiteMode <;> cases htip : env.hasTip <;> cases hseen : seen s m <;>
    cases hsig : m.checkSignature orc <;>
    simp [step, processSpork, takes, Env.handles, hlite, htip, hseen, hsig]

theorem step_getsporks : step orc s (env, .getsporks) = s := by
  simp only [step, processSpork]
  split <;> rfl

theorem find_put (m : CSporkMessage) (id : ℤ) :
    (s.put orc m).mapSporksActive.find id =
      if id = m.nSporkID then some m else s.mapSporksActive.find id :=
  Dict.find_set _ _ _ _

theorem takes_iff {m : CSporkMessage} :
    takes orc env s m = true ↔ env.handles = true ∧ seen s m = false ∧
      m.checkSignature orc = true := by
  simp only [takes, Bool.and_eq_true, Bool.not_eq_true', and_assoc]

end Steps

end Scrypta.Spork
