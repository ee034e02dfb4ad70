import Mathlib.Data.List.DropRight
import Scrypta.Script
import Scrypta.Toolkit.Dict

/-! Unspent outputs. The coins of a transaction are its outputs with the spent ones nulled,
and a view maps transaction hashes to coins. Spending an output leaves a record from which it
can be restored. -/

namespace Scrypta

structure CCoins where
  fCoinBase : Bool := false
  fCoinStake : Bool := false
  vout : List CTxOut := []
  nHeight : ℤ := 0
  nVersion : ℤ := 0
  deriving DecidableEq, Repr

/-- The output that was spent and, when it was the last one of its transaction, what else is
known of that transaction. -/
structure CTxInUndo where
  txout : CTxOut
  fCoinBase : Bool := false
  fCoinStake : Bool := false
  nHeight : ℕ := 0
  nVersion : ℤ := 0
  deriving DecidableEq, Repr

structure CTxUndo where
  vprevout : List CTxInUndo := []
  deriving DecidableEq, Repr

structure CBlockUndo where
  vtxundo : List CTxUndo := []
  deriving DecidableEq, Repr

namespace CCoins

/-- What the empty constructor and `Clear` leave. -/
def empty : CCoins := {}

/-- Spent outputs at the end are dropped. -/
def cleanup (c : CCoins) : CCoins := { c with vout := c.vout.rdropWhile CTxOut.isNull }

def clearUnspendable (c : CCoins) : CCoins :=
  cleanup { c with vout := c.vout.map fun txout =>
    if Script.isUnspendable txout.scriptPubKey then CTxOut.null else txout }

def fromTx (tx : CTransaction) (nHeightIn : ℤ) : CCoins :=
  clearUnspendable
    ⟨tx.isCoinBase, tx.isCoinStake, tx.vout, nHeightIn, tx.nVersion⟩

def isPruned (c : CCoins) : Bool := c.vout.all CTxOut.isNull

def isAvailable (c : CCoins) (nPos : ℕ) : Bool :=
  match c.vout[nPos]? with
  | some txout => !txout.isNull
  | none => false

/-- `operator==`: coins without outputs are all equal. -/
def equal (a b : CCoins) : Bool := (a.isPruned && b.isPruned) || a == b

/-- The coins after the output is spent and its undo record, or nothing when it is not there. -/
def spend (c : CCoins) (n : ℕ) : Option (CCoins × CTxInUndo) :=
  match c.vout[n]? with
  | none => none
  | some txout =>
    if txout.isNull then none
    else
      let c' := cleanup { c with vout := c.vout.set n CTxOut.null }
      if c'.vout.isEmpty then
        some (c', ⟨txout, c.fCoinBase, c.fCoinStake, toUInt32 c.nHeight, c.nVersion⟩)
      else some (c', ⟨txout, false, false, 0, 0⟩)

end CCoins

structure CCoinsViewCache where
  hashBlock : Uint256
  cacheCoins : Dict Uint256 CCoins

namespace CCoinsViewCache

def accessCoins (view : CCoinsViewCache) (txid : Uint256) : Option CCoins :=
  view.cacheCoins.find txid

/-- The coins that `ModifyCoins` hands out; there are none for an unknown transaction. -/
def coinsFor (view : CCoinsViewCache) (txid : Uint256) : CCoins :=
  (view.accessCoins txid).getD CCoins.empty

/-- The end of a `CCoinsModifier`. An entry whose outputs are all spent may stay in the cache
or leave it; both count as absent. -/
def putCoins (view : CCoinsViewCache) (txid : Uint256) (coins : CCoins) : CCoinsViewCache :=
  { view with cacheCoins := view.cacheCoins.set txid coins.cleanup }

/-- The coins of a transaction of which something is unspent. -/
def unspent (view : CCoinsViewCache) (txid : Uint256) : Option CCoins :=
  (view.accessCoins txid).filter fun c => !c.isPruned

def haveInput (view : CCoinsViewCache) (prevout : COutPoint) : Bool :=
  match view.accessCoins prevout.hash with
  | none => false
  | some coins => coins.isAvailable prevout.n.toNat

def haveInputs (view : CCoinsViewCache) (tx : CTransaction) : Bool :=
  tx.isCoinBase || tx.vin.all fun txin => view.haveInput txin.prevout

/-- `GetOutputFor`; the null output where the program asserts that there is one. -/
def getOutputFor (view : CCoinsViewCache) (txin : CTxIn) : CTxOut :=
  (view.coinsFor txin.prevout.hash).vout.getD txin.prevout.n.toNat CTxOut.null

def getValueIn (view : CCoinsViewCache) (tx : CTransaction) : CAmount :=
  if tx.isCoinBase then 0
  else (tx.vin.map fun txin => (view.getOutputFor txin).nValue).sum

/-- The loop of `UpdateCoins` over the inputs; nothing when an output is not there, where the
program stops on an assertion. -/
def spendInputs (view : CCoinsViewCache) :
    List CTxIn → Option (CCoinsViewCache × List CTxInUndo)
  | [] => some (view, [])
  | txin :: vin =>
    match (view.coinsFor txin.prevout.hash).spend txin.prevout.n.toNat with
    | none => none
    | some (coins, undo) =>
      match (view.putCoins txin.prevout.hash coins).spendInputs vin with
      | none => none
      | some (view, undos) => some (view, undo :: undos)

def addOutputs (view : CCoinsViewCache) (tx : CTransaction) (nHeight : ℤ) : CCoinsViewCache :=
  view.putCoins tx.getHash (CCoins.fromTx tx nHeight)

def updateCoins (view : CCoinsViewCache) (tx : CTransaction) (nHeight : ℤ) :
    Option (CCoinsViewCache × CTxUndo) :=
  if tx.isCoinBase then some (view.addOutputs tx nHeight, {})
  else
    match view.spendInputs tx.vin with
    | none => none
    | some (view, undos) => some (view.addOutputs tx nHeight, ⟨undos⟩)

@[simp] theorem coinsFor_putCoins (view : CCoinsViewCache) (txid : Uint256) (coins : CCoins)
    (txid' : Uint256) : (view.putCoins txid coins).coinsFor txid' =
      if txid' = txid then coins.cleanup else view.coinsFor txid' := by
  simp only [coinsFor, accessCoins, putCoins, Dict.find_set]
  split <;> rfl

def setBestBlock (view : CCoinsViewCache) (hashBlock : Uint256) : CCoinsViewCache :=
  { view with hashBlock := hashBlock }

end CCoinsViewCache

end Scrypta
