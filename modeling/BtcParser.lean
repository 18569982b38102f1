import BtcParser.Library.Ancestry
import BtcParser.Library.Dict
import BtcParser.Library.Bytes
import BtcParser.Library.Keyed
import BtcParser.Library.Program
import BtcParser.Library.Triple
import BtcParser.Library.Alike
import BtcParser.Library.Transition
import BtcParser.Common.BlockHeader
import BtcParser.Rpc.Client
import BtcParser.Rpc.PartWriter
import BtcParser.Rpc.ReorgState
import BtcParser.Rpc.Catchup
import BtcParser.Rpc.Ingest
import BtcParser.Rpc.IngestFrame
import BtcParser.Rpc.IngestSteps
import BtcParser.Export.Handoff
import BtcParser.Export.Written
import BtcParser.Export.Sequence
import BtcParser.Ingest.Records
import BtcParser.Ingest.ChainComplete
import BtcParser.Ingest.FixedChain
import BtcParser.Ingest.Lookups
import BtcParser.Ingest.Ledger
import BtcParser.Ingest.ExportedOnce
import BtcParser.Ingest.CrashSafety
import BtcParser.Ingest.Flags
import BtcParser.Ingest.FlaggedPass
import BtcParser.Ingest.Canonical
import BtcParser.Ingest.Spacing
import BtcParser.Ingest.Recovery
import BtcParser.Ingest.Workers
import BtcParser.Ingest.CatchesUp
import BtcParser.Ingest.Backfill
import BtcParser.Ingest.Prefetched
import BtcParser.Library.Tally
import BtcParser.Rpc.BlockParser
import BtcParser.Block.Totals
import BtcParser.Rpc.ParsedBlocks
import BtcParser.Ingest.ExportedTotals
import BtcParser.Rpc.MempoolWatchState
import BtcParser.Rpc.MempoolWatch
import BtcParser.Mempool.Steps
import BtcParser.Mempool.NodeChain
import BtcParser.Mempool.OldNode
import BtcParser.Mempool.Answers
import BtcParser.Mempool.Batching
import BtcParser.Mempool.BatchProbe
import BtcParser.Mempool.Lifecycle
import BtcParser.Mempool.MinedReports
import BtcParser.Mempool.Announced
import BtcParser.Mempool.NoneMissed
import BtcParser.Mempool.Reconcile
import BtcParser.Rpc.StaleBlocks
import BtcParser.Stale.Sightings
import BtcParser.Api.RequestBudget
import BtcParser.Api.PriceBackfill
import BtcParser.Prices.Resume
import BtcParser.Prices.OneRow
import BtcParser.Api.PriceValidation
import BtcParser.Prices.Validation
import BtcParser.Index.TornAppend
import BtcParser.Index.Versions
import BtcParser.Rpc.SanctionsList
import BtcParser.Sanctions.LastGood
import BtcParser.Stale.Provenance
import BtcParser.Rpc.MiningPools
import BtcParser.Pools.Tags
import BtcParser.Library.Lists
import BtcParser.Common.CsvWriter
import BtcParser.Csv.Rotation
import BtcParser.Rpc.StateFiles
import BtcParser.State.ReadBack
import BtcParser.Csv.PartNumbers
import BtcParser.Block.HeaderFormat
import BtcParser.Rpc.ZmqSequence
import BtcParser.Mempool.SequenceGaps
import BtcParser.Library.History
import BtcParser.Rpc.MempoolWatchLoop
import BtcParser.Mempool.MainLoop
import BtcParser.Library.Durable
import BtcParser.Common.AtomicWrite
import BtcParser.State.Replaced
import BtcParser.Library.Json
import BtcParser.Library.TextFile
import BtcParser.Rpc.FlaggedTxStore
import BtcParser.State.FlaggedFile
import BtcParser.Rpc.Transport
import BtcParser.Transport.SameRetries
import BtcParser.Api.Poller
import BtcParser.Library.Regex
import BtcParser.Splunk.FieldConfig
import BtcParser.Splunk.Extraction
import BtcParser.Library.DictReader
import BtcParser.Rpc.StaleBlocksGithub
import BtcParser.Stale.GithubPull
