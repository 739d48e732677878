import EthIndexer.Core.LTS
import EthIndexer.Core.Inevitable
import EthIndexer.Core.Ledger
import EthIndexer.Core.Window
import EthIndexer.Core.Watch
import EthIndexer.Core.Cast
import EthIndexer.Core.Table
import EthIndexer.Core.Linked
import EthIndexer.Core.Program
import EthIndexer.Core.Walks
import EthIndexer.Core.Positional
import EthIndexer.Core.RangePartition
import EthIndexer.Core.Hex
import EthIndexer.Core.RollingWindow
import EthIndexer.L1Chain.Decoder
import EthIndexer.L1Chain.Encoding
import EthIndexer.L1Chain.Chain
import EthIndexer.L2Storage.Db
import EthIndexer.L2Storage.Lane
import EthIndexer.L2Storage.Replay
import EthIndexer.L3Engine.Payload
import EthIndexer.L3Engine.Range
import EthIndexer.L3Engine.BuildRange
import EthIndexer.L3Engine.Fetch
import EthIndexer.L3Engine.Narrowing
import EthIndexer.L3Engine.Worker
import EthIndexer.L3Engine.System
import EthIndexer.L3Engine.Metrics
import EthIndexer.L3Engine.Throughput
import EthIndexer.L3Engine.Retry
import EthIndexer.L3Engine.Answers
import EthIndexer.L3Engine.World
import EthIndexer.L3Engine.Iterate
import EthIndexer.L3Engine.IterateRun
import EthIndexer.L3Engine.RangeEnds
import EthIndexer.L4Lanes.Entries
import EthIndexer.L4Lanes.ColdLane
import EthIndexer.L4Lanes.CrossLane
import EthIndexer.L4Lanes.HotLane
import EthIndexer.L4Lanes.HotWindow
import EthIndexer.L4Lanes.Confirmations
import EthIndexer.L4Lanes.Gauges
import EthIndexer.L4Lanes.Accounts
import EthIndexer.L4Lanes.Coverage
import EthIndexer.L4Lanes.Provenance
import EthIndexer.L4Lanes.Exactness
import EthIndexer.L4Lanes.Progress
import EthIndexer.L4Lanes.Healing
import EthIndexer.L4Lanes.Certify
import EthIndexer.L4Lanes.HotCanonical
import EthIndexer.L4Lanes.LiveWindow
import EthIndexer.L4Lanes.Stale
import EthIndexer.L4Lanes.Settling
import EthIndexer.L4Lanes.Settles
import EthIndexer.L4Lanes.LiveSettles
import EthIndexer.L4Lanes.Finality
import EthIndexer.L4Lanes.Stable
import EthIndexer.L4Lanes.ColdLedger
import EthIndexer.Core.Sql
import EthIndexer.L5Api.QueryBuilder
import EthIndexer.L5Api.Schema
import EthIndexer.L5Api.TransferQuery
import EthIndexer.L5Api.Served
import EthIndexer.L5Api.TransferValue
import EthIndexer.L5Api.Address
import EthIndexer.L5Api.Status
import EthIndexer.L6Calls.Statements
import EthIndexer.L6Calls.Limits
import EthIndexer.L6Calls.Promotion
import EthIndexer.L6Calls.ProcessRange
import EthIndexer.L6Calls.Loops
import EthIndexer.L6Calls.LoopRuns
import EthIndexer.L6Calls.Undisturbed
import EthIndexer.L6Calls.Partitions
import EthIndexer.L7Main.Config
import EthIndexer.L7Main.Operated
import EthIndexer.L7Main.Observed
