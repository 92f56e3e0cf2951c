import BitcoinClient.FinmapTotal
import BitcoinClient.Core
import BitcoinClient.WorkerSteps
import BitcoinClient.Delivery
import BitcoinClient.Supply
import BitcoinClient.Ownership
import BitcoinClient.Replay
import BitcoinClient.Provenance
import BitcoinClient.WriteOnce
import BitcoinClient.ProofOfWork
import BitcoinClient.Lengths
import BitcoinClient.ExecutedStates
import BitcoinClient.Network
import BitcoinClient.ArrivalOrder
import BitcoinClient.Stranding
import BitcoinClient.Crashes
import BitcoinClient.BlocksMessages
import BitcoinClient.ParkedChildren
import BitcoinClient.ExecutableBlocks
import BitcoinClient.LongestChain
import BitcoinClient.MerkleSoundness
import BitcoinClient.MerkleRoots
import BitcoinClient.LockCycles
import BitcoinClient.Solvency
import BitcoinClient.Backing
import BitcoinClient.Isolation
import BitcoinClient.SequentialExecution
import BitcoinClient.BalanceBounds
import BitcoinClient.OrphanCleanup
import BitcoinClient.RejectedBlocks
import BitcoinClient.PendingTransactions
import BitcoinClient.SelfForks
import BitcoinClient.CollateralRatio
import BitcoinClient.Framing
import BitcoinClient.Peers
import BitcoinClient.ChainOrder
import BitcoinClient.TipTies
import BitcoinClient.MalformedProofs
import BitcoinClient.DroppedTransactions
import BitcoinClient.Announcements
import BitcoinClient.MerkleShape
import BitcoinClient.ChainWalks
import BitcoinClient.HonestChains
import BitcoinClient.Transport
import BitcoinClient.MinerControl
import BitcoinClient.Holdings
import BitcoinClient.PositionLives
import BitcoinClient.ThreadRefinement
import BitcoinClient.ThreadedNetwork
import BitcoinClient.TxGenerator
import BitcoinClient.CatchUp
import BitcoinClient.ApiRequests
import BitcoinClient.ApiReplies
