import Tarcoin.Pow.SteadyRate
import Tarcoin.Coins.Refinement
import Tarcoin.Coins.SpendReport
import Tarcoin.Validation.Reversal
import Tarcoin.Pool.CoinbaseHeight
import Tarcoin.Pool.SoloJobs
import Tarcoin.Pool.Replays
import Tarcoin.Pool.NetworkTarget
import Tarcoin.Pool.VersionRolling
import Tarcoin.Pool.CoinbaseBytes
import Tarcoin.Pool.JobTime
import Tarcoin.Pool.FaucetRuns
import Tarcoin.Pool.Bounty
import Tarcoin.Script.VerifyScript
import Tarcoin.Script.MultiSig
import Tarcoin.Net.TxRequestAnswers
import Tarcoin.Net.OrphanageRuns
import Tarcoin.Util.AsmapSafe
import Tarcoin.Util.EvaluateFee
import Tarcoin.Filter.FilterAnswers
import Tarcoin.Validation.NoOverwrite
import Tarcoin.Consensus.MerkleExtract
import Tarcoin.Net.HeadersSyncRuns
import Tarcoin.Serialize.TxCanonical
import Tarcoin.Policy.TrucTopology
import Tarcoin.Pool.PayoutSums
import Tarcoin.Pool.WalletNames
import Tarcoin.Pool.DataEvents
import Tarcoin.Pool.MinerStats
import Tarcoin.Pool.VardiffTimers
import Tarcoin.Consensus.SequenceLocks
import Tarcoin.Cluster.Chunking
import Tarcoin.Util.MoneyStr
