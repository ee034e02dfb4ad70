import Scrypta.OrphanVotes

/-! What a node offers of its budget. `Sync` walks the maps of seen messages and offers what is
live; `getdata` answers from the maps of seen messages. Messages, blocks, local commands and the
periodic clearing change both. -/

namespace Scrypta.Budget

open Spork Runs

/-- A kind with the flags of its targets and votes. -/
structure SyncKind (τ ν : Type) extends Kind τ ν where
  fValid : τ → Bool
  setValid : τ → Bool → τ
  mapVotes : τ → Dict Uint256 ν
  setVotes : τ → Dict Uint256 ν → τ
  voteValid : ν → Bool
  setVoteValid : ν → Bool → ν

def proposalSync (orc : Oracles) : SyncKind CBudgetProposal CBudgetVote where
  toKind := proposalKind orc
  fValid := CBudgetProposal.fValid
  setValid := fun p fValid => { p with fValid := fValid }
  mapVotes := CBudgetProposal.mapVotes
  setVotes := fun p mapVotes => { p with mapVotes := mapVotes }
  voteValid := CBudgetVote.fValid
  setVoteValid := fun vote fValid => { vote with fValid := fValid }

def budgetSync (orc : Oracles) : SyncKind CFinalizedBudget CFinalizedBudgetVote where
  toKind := budgetKind orc
  fValid := CFinalizedBudget.fValid
  setValid := fun b fValid => { b with fValid := fValid }
  mapVotes := CFinalizedBudget.mapVotes
  setVotes := fun b mapVotes => { b with mapVotes := mapVotes }
  voteValid := CFinalizedBudgetVote.fValid
  setVoteValid := fun vote fValid => { vote with fValid := fValid }

/-- The budget items that an inventory message names. -/
inductive CInv
  | budgetProposal (hash : Uint256)
  | budgetVote (hash : Uint256)
  | budgetFinalized (hash : Uint256)
  | budgetFinalizedVote (hash : Uint256)
  deriving DecidableEq, Repr

section Ballots

variable {τ ν : Type} (k : SyncKind τ ν) (env : Env)

/-- A live target and its valid votes. -/
def SyncKind.offers (target vote : Uint256 → CInv) (hash : Uint256) (t : τ) : List CInv :=
  target hash :: ((k.mapVotes t).toList.filter fun e => k.voteValid e.2).map fun e =>
    vote (k.voteHash e.2)

/-- One of the two loops of `Sync` when it is not partial. -/
def Ballot.sync (b : Ballot τ ν) (nProp : Uint256) (target vote : Uint256 → CInv) : List CInv :=
  b.seen.toList.flatMap fun e =>
    match b.targets.find e.1 with
    | none => []
    | some t =>
      if k.fValid t && (nProp == 0 || e.1 == nProp) then
        k.offers target vote (k.getHash e.2) t
      else []

/-- `CleanAndRemove(false)`: a vote counts while its masternode is listed. -/
def SyncKind.cleanAndRemove (t : τ) : τ :=
  k.setVotes t ((k.mapVotes t).mapValues fun vote =>
    k.setVoteValid vote (env.find (k.vin vote).prevout).isSome)

def Ballot.cleanVotes (b : Ballot τ ν) : Ballot τ ν :=
  { b with targets := b.targets.mapValues (k.cleanAndRemove env) }

def Ballot.clearSeen (b : Ballot τ ν) : Ballot τ ν :=
  { b with seen := .empty, seenVotes := .empty }

/-- One turn of `CheckAndRemove`. A time that `IsValid` sets is kept where it succeeds. -/
def Ballot.revalidate (b : Ballot τ ν) (key : Uint256) : Option (Ballot τ ν) :=
  match b.targets.find key with
  | none => some b
  | some t => (k.isValid env t).map fun valid =>
    match valid with
    | .ok t => { b with targets := b.targets.set key (k.setValid t true) }
    | .error _ => { b with targets := b.targets.set key (k.setValid t false) }

/-- A vote of the node itself: `UpdateProposal` or `UpdateFinalizedBudget` without a peer. -/
def Ballot.castVote (b : Ballot τ ν) (vote : ν) : Ballot τ ν :=
  match b.applyVote k.toKind env vote with
  | some b => { b with seenVotes := b.seenVotes.insert (k.voteHash vote) vote }
  | none => b

/-- One turn of the loop over the immature items in `NewBlock`. -/
def Ballot.mature (b : Ballot τ ν) (t : τ) : Option (Ballot τ ν) :=
  let collateral := isBudgetCollateralValid env (k.nFeeTXHash t) (k.getHash t)
  let t := (collateral.nTime.map (k.setTime t)).getD t
  if !collateral.fValid then some { b with immature := b.immature ++ [t] }
  else
    (k.isValid env t).bind fun valid =>
      match valid with
      | .error _ => some b
      | .ok t => (b.add k.toKind env t).map Prod.fst

def Ballot.matureAll (b : Ballot τ ν) : Option (Ballot τ ν) :=
  b.immature.foldlM (Ballot.mature k env) { b with immature := [] }

end Ballots

def masternodeSyncBudget : ℤ := 4

/-- What `NewBlock` finds outside of the budget manager: whether the lock is free, how far the
masternode list is synced, the payments that `GetBudget` selects (`none` where
`SubmitFinalBudget` stops before), a fee transaction with enough confirmations, the random
number, and for each finalized budget whether `AutoCheck` asks for the payments and whether it
then signs a vote. -/
structure BlockInputs where
  fBudgetNewBlock : Bool
  requestedMasternodeAssets : ℤ
  payments : Option (List CTxBudgetPayment)
  txidCollateral : Option Uint256
  rand : ℤ
  autoCheck : Uint256 → Option (Option CFinalizedBudgetVote)

section Manager

variable (orc : Oracles) (env : Env)

/-- `Sync(pfrom, nProp, false)` -/
def CBudgetManager.sync (s : CBudgetManager) (nProp : Uint256) : List CInv :=
  s.proposals.sync (proposalSync orc) nProp .budgetProposal .budgetVote ++
    s.budgets.sync (budgetSync orc) nProp .budgetFinalized .budgetFinalizedVote

/-- `getdata` finds the item. -/
def CBudgetManager.answers (s : CBudgetManager) : CInv → Bool
  | .budgetVote hash => s.proposals.seenVotes.count hash
  | .budgetProposal hash => s.proposals.seen.count hash
  | .budgetFinalizedVote hash => s.budgets.seenVotes.count hash
  | .budgetFinalized hash => s.budgets.seen.count hash

/-- `GetBudget` and `GetAllProposals` clean the votes on every proposal first. -/
def CBudgetManager.cleanProposals (s : CBudgetManager) : CBudgetManager :=
  { s with proposals := s.proposals.cleanVotes (proposalSync orc) env }

/-- The finalized budget of the next cycle; the fee transaction does not enter its hash. -/
def nextBudget (payments : List CTxBudgetPayment) (nFeeTXHash : Uint256) : CFinalizedBudget where
  strBudgetName := "main"
  nBlockStart := env.chainActive.height -
    env.chainActive.height.tmod (getBudgetPaymentCycleBlocks env) + getBudgetPaymentCycleBlocks env
  vecBudgetPayments := payments
  mapVotes := .empty
  nFeeTXHash := nFeeTXHash

def submitFinalBudget (nb : BlockInputs) (s : CBudgetManager) : CBudgetManager :=
  match nb.payments with
  | none => s
  | some payments =>
    let s := s.cleanProposals orc env
    let tempBudget := nextBudget env payments 0
    if payments.length < 1 then s
    else if s.budgets.seen.count (tempBudget.getHash orc) then s
    else
      match nb.txidCollateral with
      | none => s
      | some txidCollateral =>
        match (nextBudget env payments txidCollateral).isValid orc env true with
        | .error _ => s
        | .ok b =>
          let budgets := { s.budgets with seen := s.budgets.seen.insert (b.getHash orc) b }
          match budgets.add (budgetKind orc) env b with
          | some (budgets, _) => { s with budgets := budgets }
          | none => s

/-- The block at which `NewBlock` clears the maps of seen messages. -/
def clears (nb : BlockInputs) : Bool :=
  env.isSynced && env.chainActive.height.tmod 1440 == nb.rand.tmod 1440

def CBudgetManager.clearSeen (s : CBudgetManager) : CBudgetManager :=
  { s with proposals := s.proposals.clearSeen, budgets := s.budgets.clearSeen }

/-- `AutoCheck` of the finalized budget under `key`. -/
def autoCheck (autoCheck : Uint256 → Option (Option CFinalizedBudgetVote)) (s : CBudgetManager)
    (key : Uint256) : CBudgetManager :=
  match autoCheck key with
  | none => s
  | some none => s.cleanProposals orc env
  | some (some vote) =>
    let s := s.cleanProposals orc env
    { s with budgets := s.budgets.castVote (budgetSync orc) env vote }

/-- One turn of the first loop of `CheckAndRemove`. -/
def checkBudget (auto : Uint256 → Option (Option CFinalizedBudgetVote)) (s : CBudgetManager)
    (key : Uint256) : Option CBudgetManager :=
  (s.budgets.revalidate (budgetSync orc) env key).map fun budgets =>
    let s := { s with budgets := budgets }
    match budgets.targets.find key with
    | some b => if b.fValid then autoCheck orc env auto s key else s
    | none => s

def CBudgetManager.checkAndRemove (auto : Uint256 → Option (Option CFinalizedBudgetVote))
    (s : CBudgetManager) : Option CBudgetManager :=
  ((s.budgets.targets.toList.map Prod.fst).foldlM (checkBudget orc env auto) s).bind fun s =>
    ((s.proposals.targets.toList.map Prod.fst).foldlM
      (Ballot.revalidate (proposalSync orc) env) s.proposals).map fun proposals =>
        { s with proposals := proposals }

/-- The clean-up of what was asked for and of the votes. -/
def CBudgetManager.cleanUp (s : CBudgetManager) : CBudgetManager where
  proposals := s.proposals.cleanVotes (proposalSync orc) env
  budgets := s.budgets.cleanVotes (budgetSync orc) env
  askedForSourceProposalOrBudget :=
    s.askedForSourceProposalOrBudget.eraseWhere fun nTime => nTime ≤ env.now - 60 * 60 * 24

def CBudgetManager.mature (s : CBudgetManager) : Option CBudgetManager :=
  (s.proposals.matureAll (proposalSync orc) env).bind fun proposals =>
    (s.budgets.matureAll (budgetSync orc) env).map fun budgets =>
      { s with proposals := proposals, budgets := budgets }

/-- `NewBlock`. The partial sync with the peers sends only; the marks it leaves are not read by
a full sync. -/
def newBlock (nb : BlockInputs) (s : CBudgetManager) : Option CBudgetManager :=
  if !nb.fBudgetNewBlock then some s
  else if nb.requestedMasternodeAssets ≤ masternodeSyncBudget then some s
  else
    let s := submitFinalBudget orc env nb s
    if env.chainActive.height.tmod 14 ≠ 0 then some s
    else
      let s := if clears env nb then s.clearSeen else s
      (s.checkAndRemove orc env nb.autoCheck).bind fun s => (s.cleanUp orc env).mature orc env

/-- The command `submitbudget`. -/
def submitBudget (p : CBudgetProposal) (s : CBudgetManager) : Option CBudgetManager :=
  let p := (proposalKind orc).broadcast p
  let hash := p.getHash orc
  let collateral := isBudgetCollateralValid env p.nFeeTXHash hash
  if !collateral.fValid || !env.isBlockchainSynced then some s
  else
    let p := { p with nTime := collateral.nTime.getD p.nTime }
    let proposals := { s.proposals with seen := s.proposals.seen.insert hash p }
    (proposals.add (proposalKind orc) env p).map fun r => { s with proposals := r.1 }

/-- What is read from the wire has its flag set. -/
def Message.read : Message → Message
  | .mprop p => .mprop p
  | .mvote vote => .mvote { vote with fValid := true }
  | .fbs b => .fbs b
  | .fbvote vote => .fbvote { vote with fValid := true }

/-- What changes the budget manager: a message, a block, the local commands, and the reset by a
spork. -/
inductive Operation
  | message (m : Message)
  | newBlock (nb : BlockInputs)
  | submitBudget (p : CBudgetProposal)
  | castVote (vote : CBudgetVote)
  | castBudgetVote (vote : CFinalizedBudgetVote)
  | checkAndRemove (auto : Uint256 → Option (Option CFinalizedBudgetVote))
  | cleanProposals
  | clear

/-- `Clear`. The items that are not mature yet are kept outside of the manager. -/
def CBudgetManager.clear (s : CBudgetManager) : CBudgetManager where
  proposals := { Ballot.empty with immature := s.proposals.immature }
  budgets := { Ballot.empty with immature := s.budgets.immature }
  askedForSourceProposalOrBudget := s.askedForSourceProposalOrBudget

def operate (s : CBudgetManager) : Operation → Option CBudgetManager
  | .message m => (processMessage orc env s m.read).map Prod.fst
  | .newBlock nb => Budget.newBlock orc env nb s
  | .submitBudget p => Budget.submitBudget orc env p s
  | .castVote vote => some { s with proposals := s.proposals.castVote (proposalSync orc) env vote }
  | .castBudgetVote vote => some { s with budgets := s.budgets.castVote (budgetSync orc) env vote }
  | .checkAndRemove auto => s.checkAndRemove orc env auto
  | .cleanProposals => some (s.cleanProposals orc env)
  | .clear => some s.clear

def operateStep (s : Option CBudgetManager) (e : Env × Operation) : Option CBudgetManager :=
  s.bind fun s => operate orc e.1 s e.2

end Manager

end Scrypta.Budget
