import SoloMiner.Sha256d.Neon
import SoloMiner.Sha256d.Midstate
import SoloMiner.Lib.Checked
import SoloMiner.Lib.PrefixParser
import SoloMiner.Lib.StepSystem
import SoloMiner.Primitives.Hex
import SoloMiner.Primitives.Hash
import SoloMiner.Primitives.Varint
import SoloMiner.Primitives.Reader
import SoloMiner.Primitives.Transaction
import SoloMiner.Primitives.Header
import SoloMiner.Primitives.Merkle
import SoloMiner.Mining.Coinbase
import SoloMiner.Mining.Block
import SoloMiner.Mining.Search
import SoloMiner.Stratum.Job
import SoloMiner.Pool.Template
import SoloMiner.Stratum.Message
import SoloMiner.Pool.JobBuilder
import SoloMiner.Pool.MinDifficulty
import SoloMiner.Lib.Prog
import SoloMiner.Pool.State
import SoloMiner.Pool.Validate
import SoloMiner.Pool.Agreement
import SoloMiner.Pool.Session
import SoloMiner.Pool.Survival
import SoloMiner.Pool.Server
import SoloMiner.Pool.Stage
import SoloMiner.Pool.History
import SoloMiner.Pool.Connections
import SoloMiner.Pool.Subscribers
import SoloMiner.Pool.Difficulty
import SoloMiner.Pool.CurrentWork
import SoloMiner.Pool.Poller
import SoloMiner.Miner.Handshake
import SoloMiner.Pool.Hold
import SoloMiner.Blk.Obfuscation
import SoloMiner.Blk.Scan
import SoloMiner.Blk.Frames
import SoloMiner.Blk.Concat
import SoloMiner.Miner.Work
import SoloMiner.Miner.Worker
import SoloMiner.Primitives.Numeric
import SoloMiner.Primitives.Compact
import SoloMiner.Miner.Batches
import SoloMiner.Miner.Claims
import SoloMiner.Primitives.Commitment
import SoloMiner.Pool.Replies
import SoloMiner.Lib.ParserCost
import SoloMiner.Mining.CoinbaseRules
import SoloMiner.Primitives.HexStrict
import SoloMiner.Miner.Lifetime
import SoloMiner.Mining.ScriptPushes
import SoloMiner.Primitives.ReaderCalls
import SoloMiner.Blk.Chain
import SoloMiner.Rpc.Base64
import SoloMiner.Rpc.Client
import SoloMiner.Rpc.Answers
import SoloMiner.Mining.Consensus
import SoloMiner.Pool.Offers
import SoloMiner.Pool.Submissions
import SoloMiner.Regtest.Round
import SoloMiner.Miner.Client
import SoloMiner.Pool.Told
import SoloMiner.System.Link
import SoloMiner.System.Linked
import SoloMiner.System.Shares
import SoloMiner.Lib.Log
import SoloMiner.Pool.Replied
import SoloMiner.Pool.Welcome
import SoloMiner.System.Exchange
import SoloMiner.System.Following
import SoloMiner.Lib.Http
import SoloMiner.Lib.Protocol
import SoloMiner.Pool.Process
import SoloMiner.Pool.Startup
import SoloMiner.Pool.Watchdog
import SoloMiner.Rpc.Http
import SoloMiner.Miner.LifetimeFile
import SoloMiner.Lib.Lines
import SoloMiner.System.Framing
import SoloMiner.Pool.Briefing
