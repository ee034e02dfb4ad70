import Scrypta.Toolkit.Runs
import Scrypta.Toolkit.Dict
import Scrypta.Toolkit.Register
import Scrypta.Primitives
import Scrypta.Script
import Scrypta.Spork
import Scrypta.SwiftExpiry
import Scrypta.SwiftForgedVotes
import Scrypta.ForgedWinners
import Scrypta.VoteOrder
import Scrypta.ForgedBudgetVotes
import Scrypta.OrphanVotes
import Scrypta.SporkResplit
import Scrypta.SporkConvergence
import Scrypta.BackedBlocks
import Scrypta.StakeBranch
import Scrypta.Minting
import Scrypta.ProtocolGate
import Scrypta.Undo
import Scrypta.BranchGrowth
import Scrypta.UndoConnect
import Scrypta.Conservation
import Scrypta.Recovery
import Scrypta.BlockReads
import Scrypta.StakeModifier
import Scrypta.BlocksInFlight
import Scrypta.PaymentQuorum
import Scrypta.Superblocks
import Scrypta.MasternodePayment
import Scrypta.SwiftOrder
import Scrypta.ForgedAnnouncements
import Scrypta.SwiftTally
import Scrypta.BudgetServing
import Scrypta.CoinsCache
import Scrypta.MerkleBlock
import Scrypta.JustCheck
import Scrypta.BlockSignature
import Scrypta.Restart
import Scrypta.Obfuscation
import Scrypta.CheckQueue
import Scrypta.Bloom
import Scrypta.SignatureHash
import Scrypta.Interpreter
import Scrypta.ScriptNumbers
import Scrypta.SigOpBound
import Scrypta.SigningComplete
import Scrypta.StakeTarget
import Scrypta.Emission
import Scrypta.Seesaw
import Scrypta.GravityWave
import Scrypta.StakeRetarget
import Scrypta.KernelSearch
import Scrypta.CoinsFormat
import Scrypta.ModifierSelection
import Scrypta.MixingSignatures
import Scrypta.MasternodeHistories
import Scrypta.BudgetCycles
import Scrypta.Replay
import Scrypta.MasternodeChoice
import Scrypta.MasternodeExpiry
import Scrypta.DownloadPlan
import Scrypta.BudgetSelection
import Scrypta.CombineSignatures
import Scrypta.CompactTargets
import Scrypta.MerkleRoots
import Scrypta.TimeData
import Scrypta.Locators
import Scrypta.FeeRates
import Scrypta.CoinSelection
import Scrypta.MultiSend
import Scrypta.UncleanStart
import Scrypta.InterruptedFlush
import Scrypta.OrphanPool
import Scrypta.Destinations
import Scrypta.PaymentScripts
import Scrypta.SignatureEncoding
import Scrypta.ScriptPushes
import Scrypta.Deletions
import Scrypta.SignatureCache
import Scrypta.CoinsSize
import Scrypta.BaseUintWords
import Scrypta.SerializedNumbers
import Scrypta.LimitedMap
import Scrypta.KeyPool
import Scrypta.MoneyStrings
import Scrypta.Base58
import Scrypta.Base64
import Scrypta.MixingDepth
import Scrypta.MixingEntries
import Scrypta.MempoolAdmission
import Scrypta.PoolRuns
