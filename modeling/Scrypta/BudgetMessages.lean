import Scrypta.BudgetRules
import Scrypta.Toolkit.Runs

/-! The budget manager and its messages. Proposals and finalized budgets are treated alike: each
kind has a table of what was added, the two filters for what was seen, and the votes that came
before what they vote on. -/

namespace Scrypta.Budget

open Spork Runs

/-- The tables of one kind: `mapProposals`, `mapSeenMasternodeBudgetProposals`,
`mapSeenMasternodeBudgetVotes`, `mapOrphanMasternodeBudgetVotes` and
`vecImmatureBudgetProposals`, or those of the finalized budgets. -/
structure Ballot (τ ν : Type) where
  targets : Dict Uint256 τ
  seen : Dict Uint256 τ
  seenVotes : Dict Uint256 ν
  orphanVotes : Dict Uint256 ν
  immature : List τ

def Ballot.empty {τ ν : Type} : Ballot τ ν := ⟨.empty, .empty, .empty, .empty, []⟩

/-- What distinguishes the two kinds. `broadcast` is what is left of an object on the wire. -/
structure Kind (τ ν : Type) where
  broadcast : τ → τ
  getHash : τ → Uint256
  nFeeTXHash : τ → Uint256
  setTime : τ → ℤ → τ
  isValid : Env → τ → Option (Except String τ)
  addOrUpdateVote : ℤ → τ → ν → Except String τ
  voteHash : ν → Uint256
  vin : ν → CTxIn
  target : ν → Uint256
  signatureValid : (COutPoint → Option Bytes) → ν → Bool

section Kinds

variable (orc : Oracles)

def proposalKind : Kind CBudgetProposal CBudgetVote where
  broadcast := fun p => { p with mapVotes := .empty, fValid := true }
  getHash := CBudgetProposal.getHash orc
  nFeeTXHash := CBudgetProposal.nFeeTXHash
  setTime := fun p nTime => { p with nTime := nTime }
  isValid := fun env p => p.isValid orc env true
  addOrUpdateVote := CBudgetProposal.addOrUpdateVote orc
  voteHash := CBudgetVote.getHash orc
  vin := CBudgetVote.vin
  target := CBudgetVote.nProposalHash
  signatureValid := CBudgetVote.signatureValid orc

/-- The time of a finalized budget is not sent. -/
def budgetKind : Kind CFinalizedBudget CFinalizedBudgetVote where
  broadcast := fun b => { b with mapVotes := .empty, nTime := 0, fValid := true }
  getHash := CFinalizedBudget.getHash orc
  nFeeTXHash := CFinalizedBudget.nFeeTXHash
  setTime := fun b nTime => { b with nTime := nTime }
  isValid := fun env b => some (b.isValid orc env true)
  addOrUpdateVote := CFinalizedBudget.addOrUpdateVote orc
  voteHash := CFinalizedBudgetVote.getHash orc
  vin := CFinalizedBudgetVote.vin
  target := CFinalizedBudgetVote.nBudgetHash
  signatureValid := CFinalizedBudgetVote.signatureValid orc

end Kinds

/-- What a handler asks of the rest of the node: note a budget item, relay it, ask the peer for a
masternode, punish the peer, ask it for the target of a vote. -/
inductive Effect
  | addedBudgetItem (hash : Uint256)
  | relay (hash : Uint256)
  | askForMN (vin : CTxIn)
  | misbehaving (howmuch : ℕ)
  | askForSource (hash : Uint256)
  deriving DecidableEq, Repr

section Handlers

variable {τ ν : Type} (k : Kind τ ν) (env : Env)

/-- `UpdateProposal` and `UpdateFinalizedBudget` on a known target. -/
def Ballot.applyVote (b : Ballot τ ν) (vote : ν) : Option (Ballot τ ν) :=
  (b.targets.find (k.target vote)).bind fun target =>
    (k.addOrUpdateVote env.now target vote).toOption.map fun target =>
      { b with targets := b.targets.set (k.target vote) target }

/-- The two functions for a vote that a peer sent: `asked` holds the targets asked for. -/
def Ballot.updateTarget (b : Ballot τ ν) (asked : Dict Uint256 ℤ) (vote : ν) :
    Ballot τ ν × Dict Uint256 ℤ × List Effect × Bool :=
  if b.targets.count (k.target vote) then
    match b.applyVote k env vote with
    | some b => (b, asked, [], true)
    | none => (b, asked, [], false)
  else if !env.isSynced then (b, asked, [], false)
  else
    let b := { b with orphanVotes := b.orphanVotes.set (k.target vote) vote }
    if asked.count (k.target vote) then (b, asked, [], false)
    else (b, asked.set (k.target vote) env.now, [.askForSource (k.target vote)], false)

/-- One turn of `CheckOrphanVotes`. -/
def Ballot.checkOrphan (b : Ballot τ ν) (e : Uint256 × ν) : Ballot τ ν :=
  match b.applyVote k env e.2 with
  | some b => { b with orphanVotes := b.orphanVotes.erase e.1 }
  | none => b

def Ballot.checkOrphanVotes (b : Ballot τ ν) : Ballot τ ν :=
  b.orphanVotes.toList.foldl (Ballot.checkOrphan k env) b

/-- `AddProposal` and `AddFinalizedBudget` -/
def Ballot.add (b : Ballot τ ν) (target : τ) : Option (Ballot τ ν × Bool) :=
  (k.isValid env target).map fun valid =>
    match valid with
    | .error _ => (b, false)
    | .ok target =>
      if b.targets.count (k.getHash target) then (b, false)
      else ({ b with targets := b.targets.set (k.getHash target) target }, true)

/-- `mprop` and `fbs`. The last component tells whether the orphan votes are looked through. -/
def Ballot.processTarget (b : Ballot τ ν) (target : τ) :
    Option (Ballot τ ν × List Effect × Bool) :=
  let hash := k.getHash target
  if b.seen.count hash then some (b, [.addedBudgetItem hash], false)
  else
    let collateral := isBudgetCollateralValid env (k.nFeeTXHash target) hash
    let target := (collateral.nTime.map (k.setTime target)).getD target
    if !collateral.fValid then
      some ({ b with immature := b.immature ++ if 1 ≤ collateral.nConf then [target] else [] },
        [], false)
    else
      let b := { b with seen := b.seen.insert hash target }
      (k.isValid env target).bind fun valid =>
        match valid with
        | .error _ => some (b, [], false)
        | .ok target => (b.add k env target).map fun r =>
            (r.1, (if r.2 then [.relay hash] else []) ++ [.addedBudgetItem hash], true)

/-- `mvote` and `fbvote` -/
def Ballot.processVote (b : Ballot τ ν) (asked : Dict Uint256 ℤ) (vote : ν) :
    Ballot τ ν × Dict Uint256 ℤ × List Effect :=
  let hash := k.voteHash vote
  if b.seenVotes.count hash then (b, asked, [.addedBudgetItem hash])
  else if (env.find (k.vin vote).prevout).isNone then (b, asked, [.askForMN (k.vin vote)])
  else
    let b := { b with seenVotes := b.seenVotes.insert hash vote }
    if !k.signatureValid env.find vote then
      (b, asked, (if env.isSynced then [.misbehaving 20] else []) ++ [.askForMN (k.vin vote)])
    else
      let (b, asked, effects, ok) := b.updateTarget k env asked vote
      (b, asked, effects ++ if ok then [.relay hash, .addedBudgetItem hash] else [])

end Handlers

structure CBudgetManager where
  proposals : Ballot CBudgetProposal CBudgetVote
  budgets : Ballot CFinalizedBudget CFinalizedBudgetVote
  askedForSourceProposalOrBudget : Dict Uint256 ℤ

def CBudgetManager.init : CBudgetManager := ⟨.empty, .empty, .empty⟩

inductive Message
  | mprop (p : CBudgetProposal)
  | mvote (vote : CBudgetVote)
  | fbs (b : CFinalizedBudget)
  | fbvote (vote : CFinalizedBudgetVote)

section Manager

variable (orc : Oracles)

def CBudgetManager.checkOrphanVotes (env : Env) (s : CBudgetManager) : CBudgetManager :=
  { s with
    proposals := s.proposals.checkOrphanVotes (proposalKind orc) env
    budgets := s.budgets.checkOrphanVotes (budgetKind orc) env }

def processMprop (env : Env) (s : CBudgetManager) (p : CBudgetProposal) :
    Option (CBudgetManager × List Effect) :=
  (s.proposals.processTarget (proposalKind orc) env ((proposalKind orc).broadcast p)).map
    fun r =>
      let s := { s with proposals := r.1 }
      (if r.2.2 then s.checkOrphanVotes orc env else s, r.2.1)

def processFbs (env : Env) (s : CBudgetManager) (b : CFinalizedBudget) :
    Option (CBudgetManager × List Effect) :=
  (s.budgets.processTarget (budgetKind orc) env ((budgetKind orc).broadcast b)).map
    fun r =>
      let s := { s with budgets := r.1 }
      (if r.2.2 then s.checkOrphanVotes orc env else s, r.2.1)

def processMvote (env : Env) (s : CBudgetManager) (vote : CBudgetVote) :
    CBudgetManager × List Effect :=
  let r := s.proposals.processVote (proposalKind orc) env s.askedForSourceProposalOrBudget
    { vote with fValid := true }
  ({ s with proposals := r.1, askedForSourceProposalOrBudget := r.2.1 }, r.2.2)

def processFbvote (env : Env) (s : CBudgetManager) (vote : CFinalizedBudgetVote) :
    CBudgetManager × List Effect :=
  let r := s.budgets.processVote (budgetKind orc) env s.askedForSourceProposalOrBudget vote
  ({ s with budgets := r.1, askedForSourceProposalOrBudget := r.2.1 }, r.2.2)

/-- The messages are handled at all. -/
def Env.handles (env : Env) : Bool := !env.fLiteMode && env.isBlockchainSynced

/-- `ProcessMessage`; `none` when it does not return. -/
def processMessage (env : Env) (s : CBudgetManager) (m : Message) :
    Option (CBudgetManager × List Effect) :=
  if !env.handles then some (s, [])
  else
    match m with
    | .mprop p => processMprop orc env s p
    | .mvote vote => some (processMvote orc env s vote)
    | .fbs b => processFbs orc env s b
    | .fbvote vote => some (processFbvote orc env s vote)

def step (s : Option CBudgetManager) (e : Env × Message) : Option CBudgetManager :=
  s.bind fun s => (processMessage orc e.1 s e.2).map Prod.fst

end Manager

end Scrypta.Budget
